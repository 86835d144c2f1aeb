import Bispe.Compiler.Generator
import Bispe.Compiler.Registration

/-!
# The code of a program

The code list as a function of the syntax: what the generator appends for a phrase,
and how the code of a program is composed of an entry and the code of its functions.
A jump is emitted with its final target here, where the generator patches it.

## Main definitions

* `Expr.emit`, `Cond.emit`, `Stmt.emit` — the code of a phrase.
* `Func.emit`, `emitItems`, `entryCode` — the code of a function and of a program.
* `Appends` — a part of the generator appends this code.
-/

namespace Bispe

open Effect

/-- The words a list of elements takes. -/
def words (code : List CodeElem) : ℕ := (code.map CodeElem.width).sum

@[simp] theorem words_nil : words [] = 0 := rfl

@[simp] theorem words_append (l l' : List CodeElem) : words (l ++ l') = words l + words l' := by
  simp [words]

@[simp] theorem words_cons (elem : CodeElem) (l : List CodeElem) :
    words (elem :: l) = elem.width + words l := by simp [words]

/-- An element of no call. -/
def elem (instr : InstrType) (arg : ℕ) : CodeElem := ⟨instr, BitVec.ofNat 32 arg, none⟩

def NumOp.instr : NumOp → InstrType
  | .plus => .add
  | .minus => .sub
  | .star => .mul
  | .slash => .div
  | .percent => .mod

/-- The jump that is taken when the condition holds. -/
def BoolOp.jmp (op : BoolOp) : InstrType := boolopToJmpInstr op.tok

section Emission
variable (t : FuncTable) (junk : Junk) (name : String)

/-- The slot of a variable in the frame of the current function. -/
def slot (x : String) : ℕ := (((t name).bind fun info => info.pos x)).getD 0

/-- The stores of `n` arguments, the last one first. -/
def storeCode : ℕ → List CodeElem
  | 0 => []
  | i + 1 => elem .store i :: storeCode i

/-- The address a call is given. -/
def callAddr (g : String) : Word := (((t g).bind fun info => info.addr)).getD (junk g)

def callArgCount (g : String) : ℕ := ((t g).map fun info => info.argCount).getD 0

/-- A call, from its arguments on the operand stack. -/
def callCode (g : String) : List CodeElem :=
  storeCode (callArgCount t g) ++ [⟨.call, callAddr t junk g, some g⟩]

mutual

def Expr.emit : Expr → List CodeElem
  | .unary u => u.emit
  | .bin u op e => u.emit ++ e.emit ++ [elem op.instr 0]

def Unary.emit : Unary → List CodeElem
  | .call g args => args.emit ++ callCode t junk g
  | .var x => [elem .load (slot t name x)]
  | .lit n => [⟨.push, n, none⟩]
  | .paren e => e.emit

def Args.emit : Args → List CodeElem
  | .empty => []
  | .last e => e.emit
  | .cons e args => e.emit ++ args.emit

end

/-- The operands of a condition. -/
def Cond.operands (c : Cond) : List CodeElem := c.left.emit t junk name ++ c.right.emit t junk name

/-- A condition with its jump. -/
def Cond.emit (c : Cond) (instr : InstrType) (target : ℕ) : List CodeElem :=
  c.operands t junk name ++ [elem instr target]

def exprEmit? : Option Expr → List CodeElem
  | none => []
  | some e => e.emit t junk name

def Simple.emit : Simple → List CodeElem
  | .varDef _ _ none => []
  | .varDef _ x (some e) => e.emit t junk name ++ [elem .store (slot t name x)]
  | .varAssign x e => e.emit t junk name ++ [elem .store (slot t name x)]

/-- The size of the frame of the current function. -/
def frameSize : ℕ := ((t name).map fun info => info.frameSize).getD 0

def prologCode : List CodeElem :=
  if 0 < frameSize t name then [elem .prolog (frameSize t name)] else []

def epilogCode : List CodeElem :=
  if 0 < frameSize t name then [elem .epilog (frameSize t name)] else []

/-- The code of a statement that starts at the word `base`. -/
def Stmt.emit (base : ℕ) : Stmt → List CodeElem
  | .skip => []
  | .seq s rest =>
      let code := s.emit base
      code ++ rest.emit (base + words code)
  | .simple s => s.emit t junk name
  | .call g args => args.emit t junk name ++ callCode t junk g
  | .print e => e.emit t junk name ++ [elem .print 0]
  | .ret e => exprEmit? t junk name e ++ epilogCode t name ++ [elem .ret 0]
  | .ifThen c s =>
      let start := base + words (c.operands t junk name) + 2
      let code := s.emit start
      c.emit t junk name (negJmpInstr c.op.jmp) (start + words code) ++ code
  | .ifElse c s₁ s₂ =>
      let start := base + words (c.operands t junk name) + 2
      let code₁ := s₁.emit start
      let middle := start + words code₁ + 2
      let code₂ := s₂.emit middle
      c.emit t junk name (negJmpInstr c.op.jmp) middle ++ code₁ ++
        elem .jmp (middle + words code₂) :: code₂
  | .whileLoop c body =>
      let code := body.emit (base + 2)
      elem .jmp (base + 2 + words code) :: code ++ c.emit t junk name c.op.jmp (base + 2)
  | .forLoop init c x e body =>
      let start := base + words (init.emit t junk name) + 2
      let code := body.emit start ++ (Simple.varAssign x e).emit t junk name
      init.emit t junk name ++ elem .jmp (start + words code) :: code ++
        c.emit t junk name c.op.jmp start
  | .doLoop body c => body.emit base ++ c.emit t junk name c.op.jmp base

end Emission

/-- The last instruction is `RET`, or there is none and that before is. -/
def endsInRet (before : Bool) (code : List CodeElem) : Bool :=
  match code.getLast? with
  | none => before
  | some last => last.instr = .ret

/-- The code of a function at the word `base`, after code that ends in `RET` or not. -/
def Func.emit (t : FuncTable) (junk : Junk) (before : Bool) (base : ℕ) (f : Func) :
    List CodeElem :=
  let prolog := prologCode t f.name
  let code := prolog ++ f.body.emit t junk f.name (base + words prolog)
  if endsInRet before code then code else code ++ epilogCode t f.name ++ [elem .ret 0]

/-- The address of a function becomes known. -/
def setAddr (t : FuncTable) (name : String) (base : ℕ) : FuncTable :=
  Function.update t name ((t name).map fun info =>
    { info with addr := some (BitVec.ofNat 32 base) })

/-- The code of the functions of a program, from the word `base` on, and the tables
with their addresses. -/
def emitItems (junk : Junk) : List Item → ℕ → Bool → FuncTable → List CodeElem × FuncTable
  | [], _, _, t => ([], t)
  | .proto _ :: items, base, before, t => emitItems junk items base before t
  | .func f :: items, base, before, t =>
      let t' := setAddr t f.name base
      let code := f.emit t' junk before base
      let rest := emitItems junk items (base + words code) (endsInRet before code) t'
      (code ++ rest.1, rest.2)

/-- Load `n` program arguments from the `i`-th on. -/
def argloadCode : ℕ → ℕ → List CodeElem
  | _, 0 => []
  | i, n + 1 => elem .argload i :: argloadCode (i + 1) n

/-- The code before the call of `main`. -/
def entryArgs (argCount : ℕ) : List CodeElem :=
  (if 0 < argCount then [elem .prolog argCount] else []) ++ argloadCode 0 argCount

/-- The entry of a program. -/
def entryCode (argCount : ℕ) (addr : Word) : List CodeElem :=
  entryArgs argCount ++ [⟨.call, addr, some "main"⟩, elem .finish 0]

/-! ## The generator -/

/-- Code has been appended. -/
def GState.append (s : GState) (l : List CodeElem) : GState :=
  { s with code := s.code ++ l, size := s.size + words l }

@[simp] theorem GState.append_funcTable (s : GState) (l : List CodeElem) :
    (s.append l).funcTable = s.funcTable := rfl

@[simp] theorem GState.append_currentFunc (s : GState) (l : List CodeElem) :
    (s.append l).currentFunc = s.currentFunc := rfl

@[simp] theorem GState.append_size (s : GState) (l : List CodeElem) :
    (s.append l).size = s.size + words l := rfl

@[simp] theorem GState.append_nil (s : GState) : s.append [] = s := by
  simp [GState.append]

@[simp] theorem GState.append_append (s : GState) (l l' : List CodeElem) :
    (s.append l).append l' = s.append (l ++ l') := by
  simp [GState.append, Nat.add_assoc]

/-- When `x` succeeds, it appends the code, and sizes do not overflow. -/
def Appends (x : G Unit) (s : GState) (l : List CodeElem) : Prop :=
  ∀ s', x s = .ok () s' → s' = s.append l ∧ (s.size < 2 ^ 31 → s'.size < 2 ^ 31)

namespace Appends

variable {s : GState} {l l' : List CodeElem}

theorem pure (s : GState) : Appends (pure ()) s [] := by
  intro s' h
  cases h
  exact ⟨s.append_nil.symm, id⟩

theorem bind {x : G Unit} {f : Unit → G Unit} (hx : Appends x s l)
    (hf : Appends (f ()) (s.append l) l') : Appends (x >>= f) s (l ++ l') := by
  intro s' h
  obtain ⟨_, s₁, h₁, h₂⟩ := bind_eq_ok h
  obtain ⟨rfl, hlt⟩ := hx s₁ h₁
  obtain ⟨rfl, hlt'⟩ := hf s' h₂
  exact ⟨s.append_append l l', fun h => hlt' (hlt h)⟩

theorem bind_nil {x : G Unit} {f : Unit → G Unit} (hx : Appends x s l)
    (hf : Appends (f ()) (s.append l) []) : Appends (x >>= f) s l := by
  have h := hx.bind hf
  rwa [List.append_nil] at h

/-- Reading the state. -/
theorem read {α : Type} {x : G α} {f : α → G Unit}
    (hx : ∀ a s', x s = .ok a s' → s' = s ∧ Appends (f a) s l) : Appends (x >>= f) s l := by
  intro s' h
  obtain ⟨a, s₁, h₁, h₂⟩ := bind_eq_ok h
  obtain ⟨rfl, hf⟩ := hx a s₁ h₁
  exact hf s' h₂

end Appends

theorem pushCall_appends (s : GState) (instr : InstrType) (arg : Word) (callee : Option String) :
    Appends (pushCall instr arg callee) s [⟨instr, arg, callee⟩] := by
  intro s' h
  unfold pushCall at h
  simp only at h
  split at h
  · next hlt =>
    cases h
    exact ⟨by simp [GState.append], fun _ => hlt⟩
  · cases h

theorem pushElem_appends (s : GState) (instr : InstrType) (arg : ℕ) :
    Appends (pushElem instr (BitVec.ofNat 32 arg)) s [elem instr arg] :=
  pushCall_appends s instr _ none

theorem pushElem_zero (s : GState) (instr : InstrType) :
    Appends (pushElem instr 0) s [elem instr 0] := pushElem_appends s instr 0

theorem derefCallee_eq_ok {g : String} {s s' : GState} {info : FuncInfo}
    (h : derefCallee g s = .ok info s') : s' = s ∧ s.funcTable g = some info := by
  unfold derefCallee at h
  cases hg : s.funcTable g with
  | none => rw [hg] at h; cases h
  | some func =>
      rw [hg] at h
      cases h
      exact ⟨rfl, rfl⟩

theorem varPos_eq_ok {name x : String} {s s' : GState} {w : Word}
    (h : varPos name x s = .ok w s') :
    s' = s ∧ w = BitVec.ofNat 32 (slot s.funcTable name x) := by
  obtain ⟨info, s₁, hread, hmatch⟩ := bind_eq_ok h
  obtain ⟨rfl, hinfo⟩ := derefCallee_eq_ok hread
  generalize hvar : getVar x info = found at hmatch
  cases found with
  | none => cases hmatch
  | some var =>
    cases hmatch
    refine ⟨rfl, ?_⟩
    have hpos : info.pos x = some var.pos := by
      rw [FuncInfo.pos, show info.varTable x = some var from hvar]
      rfl
    simp [slot, hinfo, hpos]

theorem pushStores_appends (n : ℕ) (s : GState) : Appends (pushStores n) s (storeCode n) := by
  induction n generalizing s with
  | zero => exact .pure s
  | succ n ih => exact (pushElem_appends s .store n).bind (ih _)

theorem pushFcall_appends (junk : Junk) (g : String) (s : GState) :
    Appends (pushFcall junk g) s (callCode s.funcTable junk g) := by
  refine .read fun info s' h => ?_
  obtain ⟨rfl, hinfo⟩ := derefCallee_eq_ok h
  refine ⟨rfl, ?_⟩
  have hcount : callArgCount s'.funcTable g = info.argCount := by simp [callArgCount, hinfo]
  have haddr : callAddr s'.funcTable junk g = info.addr.getD (junk g) := by
    simp [callAddr, hinfo]
  rw [callCode, hcount, haddr]
  exact (pushStores_appends info.argCount s').bind (pushCall_appends _ _ _ _)

section Expressions
variable {t : FuncTable} {junk : Junk} {name : String}

theorem generateHelper_numop (op : NumOp) (s : GState) :
    Appends (generateHelper junk (numopNode op)) s [elem op.instr 0] := by
  have hrun : generateHelper junk (numopNode op) =
      (pushElem op.instr 0 >>= fun _ => pure () >>= fun _ => pure ()) := by
    cases op <;> rfl
  rw [hrun]
  exact (pushElem_zero s op.instr).bind_nil (.bind_nil (.pure _) (.pure _))

theorem generateHelper_boolop (op : BoolOp) (s : GState) :
    Appends (generateHelper junk (boolopNode op)) s [elem op.jmp 0] := by
  have hrun : generateHelper junk (boolopNode op) =
      (pushElem op.jmp 0 >>= fun _ => pure () >>= fun _ => pure ()) := rfl
  rw [hrun]
  exact (pushElem_zero s op.jmp).bind_nil (.bind_nil (.pure _) (.pure _))

/-- A node that only passes on to its left child. -/
theorem generateHelper_inner {type : AstType} {left : Node} {s : GState} {l : List CodeElem}
    (hrun : generateHelper junk (inner type left) =
      (generateHelper junk left >>= fun _ => pure () >>= fun _ => pure ()))
    (h : Appends (generateHelper junk left) s l) :
    Appends (generateHelper junk (inner type left)) s l := by
  rw [hrun]
  exact h.bind_nil (.bind_nil (.pure _) (.pure _))

mutual

/-- **The code of an expression.** -/
theorem generateHelper_expr : ∀ (e : Expr) {t : FuncTable} {s : GState}, s.funcTable = t →
    Appends (generateHelper junk (e.node (.var name))) s (e.emit t junk name)
  | .unary u, t, s, ht => by
      have hrun : generateHelper junk ((Expr.unary u).node (.var name)) =
          (generateHelper junk (u.node (.var name)) >>= fun _ => pure () >>= fun _ => pure ()) :=
            rfl
      exact generateHelper_inner hrun (generateHelper_unary u ht)
  | .bin u op e, t, s, ht => by
      have hrun : generateHelper junk ((Expr.bin u op e).node (.var name)) =
          (generateHelper junk (u.node (.var name)) >>= fun _ =>
            generateHelper junk (e.node (.var name)) >>= fun _ =>
              generateHelper junk (numopNode op)) := rfl
      rw [hrun, Expr.emit, List.append_assoc]
      refine (generateHelper_unary u ht).bind ?_
      refine (generateHelper_expr e (s := s.append _) ht).bind ?_
      exact generateHelper_numop op _

theorem generateHelper_unary : ∀ (u : Unary) {t : FuncTable} {s : GState}, s.funcTable = t →
    Appends (generateHelper junk (u.node (.var name))) s (u.emit t junk name)
  | .call g args, t, s, ht => by
      have hrun : generateHelper junk ((Unary.call g args).node (.var name)) =
          ((generateHelper junk (args.node (.var name)) >>= fun _ => pushFcall junk g) >>=
            fun _ => pure () >>= fun _ => pure ()) := rfl
      rw [hrun]
      refine Appends.bind_nil ?_ (.bind_nil (.pure _) (.pure _))
      subst ht
      exact (generateHelper_args args rfl).bind (pushFcall_appends junk g _)
  | .var x, t, s, ht => by
      have hrun : generateHelper junk ((Unary.var x).node (.var name)) =
          ((varPos name x >>= fun w => pushElem .load w) >>=
            fun _ => pure () >>= fun _ => pure ()) := rfl
      rw [hrun]
      refine Appends.bind_nil (.read fun w s' h => ?_) (.bind_nil (.pure _) (.pure _))
      obtain ⟨rfl, rfl⟩ := varPos_eq_ok h
      rw [ht]
      exact ⟨rfl, pushElem_appends _ _ _⟩
  | .lit n, t, s, _ => by
      have hrun : generateHelper junk ((Unary.lit n).node (.var name)) =
          (pushElem .push n >>= fun _ => pure () >>= fun _ => pure ()) := rfl
      rw [hrun]
      exact (pushCall_appends s .push n none).bind_nil (.bind_nil (.pure _) (.pure _))
  | .paren e, t, s, ht => by
      have hrun : generateHelper junk ((Unary.paren e).node (.var name)) =
          (generateHelper junk (e.node (.var name)) >>= fun _ => pure () >>= fun _ => pure ()) :=
            rfl
      exact generateHelper_inner hrun (generateHelper_expr e ht)

theorem generateHelper_args : ∀ (args : Args) {t : FuncTable} {s : GState}, s.funcTable = t →
    Appends (generateHelper junk (args.node (.var name))) s (args.emit t junk name)
  | .empty, t, s, _ => .pure s
  | .last e, t, s, ht => by
      have hrun : generateHelper junk ((Args.last e).node (.var name)) =
          (generateHelper junk (e.node (.var name)) >>= fun _ => pure () >>= fun _ => pure ()) :=
            rfl
      exact generateHelper_inner hrun (generateHelper_expr e ht)
  | .cons e args, t, s, ht => by
      have hrun : generateHelper junk ((Args.cons e args).node (.var name)) =
          (generateHelper junk (e.node (.var name)) >>= fun _ =>
            generateHelper junk (args.node (.var name)) >>= fun _ => pure ()) := rfl
      rw [hrun, Args.emit]
      refine (generateHelper_expr e ht).bind ?_
      exact (generateHelper_args args (s := s.append _) ht).bind_nil (.pure _)

end

theorem generateHelper_expr? {e : Option Expr} {s : GState} (ht : s.funcTable = t) :
    Appends (generateHelper junk (exprNode? (.var name) e)) s (exprEmit? t junk name e) := by
  cases e with
  | none => exact .pure s
  | some e => exact generateHelper_expr e ht

/-- A condition ends in the jump that is patched. -/
theorem generateHelper_cond {c : Cond} {s : GState} (ht : s.funcTable = t) :
    Appends (generateHelper junk (c.node (.var name))) s (c.emit t junk name c.op.jmp 0) := by
  have hrun : generateHelper junk (c.node (.var name)) =
      (generateHelper junk (c.left.node (.var name)) >>= fun _ =>
        generateHelper junk (c.right.node (.var name)) >>= fun _ =>
          generateHelper junk (boolopNode c.op)) := rfl
  rw [hrun, Cond.emit, Cond.operands, List.append_assoc]
  refine (generateHelper_expr c.left ht).bind ?_
  refine (generateHelper_expr c.right (s := s.append _) ht).bind ?_
  exact generateHelper_boolop c.op _

/-! ### Statements -/

/-- When `x` succeeds, it returns `a` and leaves `s₁`, and sizes do not overflow. -/
def Yields {α : Type} (x : G α) (s : GState) (a : α) (s₁ : GState) : Prop :=
  ∀ b s', x s = .ok b s' → b = a ∧ s' = s₁ ∧ (s.size < 2 ^ 31 → s₁.size < 2 ^ 31)

theorem Yields.bind {α β : Type} {x : G α} {f : α → G β} {s s₁ s₂ : GState} {a : α} {b : β}
    (hx : Yields x s a s₁) (hf : Yields (f a) s₁ b s₂) : Yields (x >>= f) s b s₂ := by
  intro c s' h
  obtain ⟨a', s₁', h₁, h₂⟩ := bind_eq_ok h
  obtain ⟨rfl, rfl, hlt⟩ := hx a' s₁' h₁
  obtain ⟨rfl, rfl, hlt'⟩ := hf c s' h₂
  exact ⟨rfl, rfl, fun h => hlt' (hlt h)⟩

theorem Appends.yields {x : G Unit} {s : GState} {l : List CodeElem} (h : Appends x s l) :
    Yields x s () (s.append l) := by
  intro _ s' hx
  obtain ⟨rfl, hlt⟩ := h s' hx
  exact ⟨rfl, rfl, hlt⟩

theorem Yields.appends {x : G Unit} {s : GState} {l : List CodeElem}
    (h : Yields x s () (s.append l)) : Appends x s l := by
  intro s' hx
  obtain ⟨-, rfl, hlt⟩ := h () s' hx
  exact ⟨rfl, hlt⟩

/-- More code after some that has been appended. -/
theorem Appends.more {x : G Unit} {s : GState} {l l' : List CodeElem}
    (h : Appends x (s.append l) l') : Yields x (s.append l) () (s.append (l ++ l')) := by
  have hx := h.yields
  rwa [GState.append_append] at hx

theorem getSize_yields (s : GState) : Yields getSize s s.size s := by
  intro n s' h
  cases h
  exact ⟨rfl, rfl, id⟩

theorem current_yields (s : GState) (l : List CodeElem) (x : CodeElem) :
    Yields current (s.append (l ++ [x])) (s.code.length + l.length) (s.append (l ++ [x])) := by
  intro n s' h
  have hne : (s.append (l ++ [x])).code ≠ [] := by simp [GState.append]
  rw [current, if_neg hne] at h
  cases h
  refine ⟨?_, rfl, id⟩
  simp only [GState.append, List.length_append, List.length_singleton]
  omega

theorem modify_length_append (k l' : List CodeElem) (x : CodeElem) (f : CodeElem → CodeElem) :
    (k ++ x :: l').modify k.length f = k ++ f x :: l' := by
  rw [List.modify_eq_take_cons_drop (by simp)]
  simp

theorem patch_yields (s : GState) (l l' : List CodeElem) (x : CodeElem) (f : CodeElem → CodeElem)
    (hf : (f x).width = x.width) :
    Yields (patch (s.code.length + l.length) f) (s.append (l ++ x :: l')) ()
      (s.append (l ++ f x :: l')) := by
  intro _ s' h
  cases h
  refine ⟨rfl, ?_, ?_⟩
  · have hcode : (s.code ++ (l ++ x :: l')).modify (s.code.length + l.length) f =
        s.code ++ (l ++ f x :: l') := by
      simpa using modify_length_append (s.code ++ l) l' x f
    simp [GState.append, hf, hcode]
  · simp [hf]

theorem setArg_yields (s : GState) (l l' : List CodeElem) (instr : InstrType) (arg n : ℕ) :
    Yields (setArg (s.code.length + l.length) n) (s.append (l ++ elem instr arg :: l')) ()
      (s.append (l ++ elem instr n :: l')) :=
  patch_yields s l l' (elem instr arg) _ rfl

theorem BoolOp.negJmpInstr_width (op : BoolOp) (a b : ℕ) :
    (elem (negJmpInstr op.jmp) a).width = (elem op.jmp b).width := by
  cases op <;> rfl

@[simp] theorem BoolOp.jmp_width (op : BoolOp) (arg : ℕ) : (elem op.jmp arg).width = 2 := by
  cases op <;> rfl

@[simp] theorem BoolOp.neg_width (op : BoolOp) (arg : ℕ) :
    (elem (negJmpInstr op.jmp) arg).width = 2 := by
  cases op <;> rfl

@[simp] theorem jmp_width (arg : ℕ) : (elem .jmp arg).width = 2 := rfl

theorem Stmt.node_ne_null (s : Stmt) : s.node name ≠ .null := by
  cases s <;> simp [Stmt.node, Stmt.nodeWith, inner, emptyNode, allocNode]

/-- Store into a variable. -/
theorem pushStoreVar_appends {s : GState} (x : String) (ht : s.funcTable = t) :
    Appends (varPos name x >>= fun w => pushElem .store w) s [elem .store (slot t name x)] := by
  refine .read fun w s' h => ?_
  obtain ⟨rfl, rfl⟩ := varPos_eq_ok h
  rw [ht]
  exact ⟨rfl, pushElem_appends _ _ _⟩

theorem generateHelper_simple (s : Simple) {g : GState} (ht : g.funcTable = t) :
    Appends (generateHelper junk (s.node name)) g (s.emit t junk name) := by
  cases s with
  | varDef type x init =>
      cases init with
      | none => exact .pure g
      | some e =>
          have hrun : generateHelper junk ((Simple.varDef type x (some e)).node name) =
              (generateHelper junk (e.node (.var name)) >>= fun _ =>
                varPos name x >>= fun w => pushElem .store w) := if_neg (e.node_ne_null _)
          rw [hrun]
          exact (generateHelper_expr e ht).bind (pushStoreVar_appends x ht)
  | varAssign x e =>
      have hrun : generateHelper junk ((Simple.varAssign x e).node name) =
          (generateHelper junk (e.node (.var name)) >>= fun _ =>
            varPos name x >>= fun w => pushElem .store w) := if_neg (e.node_ne_null _)
      rw [hrun]
      exact (generateHelper_expr e ht).bind (pushStoreVar_appends x ht)

theorem pushFuncProlog_appends {s : GState} (ht : s.funcTable = t) :
    Appends (derefCallee name >>= pushFuncProlog) s (prologCode t name) := by
  refine .read fun info s' h => ?_
  obtain ⟨rfl, hinfo⟩ := derefCallee_eq_ok h
  refine ⟨rfl, ?_⟩
  have hsize : frameSize t name = info.frameSize := by simp [frameSize, ← ht, hinfo]
  rw [prologCode, hsize, pushFuncProlog]
  split
  · exact pushElem_appends _ _ _
  · exact .pure _

theorem pushFuncEpilog_appends {s : GState} (ht : s.funcTable = t) :
    Appends (derefCallee name >>= pushFuncEpilog) s (epilogCode t name) := by
  refine .read fun info s' h => ?_
  obtain ⟨rfl, hinfo⟩ := derefCallee_eq_ok h
  refine ⟨rfl, ?_⟩
  have hsize : frameSize t name = info.frameSize := by simp [frameSize, ← ht, hinfo]
  rw [epilogCode, hsize, pushFuncEpilog]
  split
  · exact pushElem_appends _ _ _
  · exact .pure _

/-- The end of a function, after its value. -/
theorem pushReturn_appends {s : GState} (ht : s.funcTable = t) :
    Appends (derefCallee name >>= fun func => pushFuncEpilog func >>= fun _ => pushElem .ret 0) s
      (epilogCode t name ++ [elem .ret 0]) := by
  have hassoc : (derefCallee name >>= fun func => pushFuncEpilog func >>= fun _ =>
      pushElem .ret 0) =
      ((derefCallee name >>= pushFuncEpilog) >>= fun _ => pushElem .ret 0) :=
    (bind_assoc _ _ _).symm
  rw [hassoc]
  exact (pushFuncEpilog_appends ht).bind (pushElem_zero _ _)

end Expressions

end Bispe
