import Bispe.Compiler.Accepted
import Bispe.Compiler.Encoding

/-!
# The generator and the code of a program

The generator appends the code of each statement, function and program, with the jumps
patched to their targets.  Its only state is the list, its size and the current function.

## Main definitions

* `generateHelper_stmt`, `generateHelper_func` — what it appends for a statement, and
  for a function.
* `generateCode_eq_some` — the list of a program.
-/

namespace Bispe

open Effect

section Statements
variable {t : FuncTable} {junk : Junk} {name : String}

/-- Negate the jump of a condition. -/
theorem negate_yields (s : GState) (l : List CodeElem) (op : BoolOp) :
    Yields (patch (s.code.length + l.length) fun elem =>
        { elem with instr := negJmpInstr elem.instr }) (s.append (l ++ [elem op.jmp 0])) ()
      (s.append (l ++ [elem (negJmpInstr op.jmp) 0])) :=
  patch_yields s l [] (elem op.jmp 0) _ (op.negJmpInstr_width 0 0)

/-- A condition whose jump goes back. -/
theorem jumpBack_yields {c : Cond} {s : GState} (ht : s.funcTable = t) (l : List CodeElem)
    (back : ℕ) :
    Yields (generateHelper junk (c.node (.var name)) >>= fun _ => current >>= fun k =>
        setArg k back) (s.append l) () (s.append (l ++ c.emit t junk name c.op.jmp back)) := by
  have hcond := (@generateHelper_cond t junk name c (s.append l) ht).more
  rw [Cond.emit, ← List.append_assoc] at hcond ⊢
  refine hcond.bind ((current_yields s (l ++ c.operands t junk name) _).bind ?_)
  exact setArg_yields s (l ++ c.operands t junk name) [] c.op.jmp 0 back

/-- A loop that starts with a jump to its condition. -/
theorem loop_yields {c : Cond} {s : GState} (ht : s.funcTable = t) {l code : List CodeElem}
    {x : G Unit} (hx : Appends x (s.append (l ++ [elem .jmp 0])) code) :
    Yields (pushElem .jmp 0 >>= fun _ => current >>= fun i => getSize >>= fun back =>
        x >>= fun _ => getSize >>= fun n => setArg i n >>= fun _ =>
          generateHelper junk (c.node (.var name)) >>= fun _ => current >>= fun k =>
            setArg k back) (s.append l) ()
      (s.append (l ++ elem .jmp (s.size + words l + 2 + words code) :: code ++
        c.emit t junk name c.op.jmp (s.size + words l + 2))) := by
  refine (pushElem_zero (s.append l) .jmp).more.bind ((current_yields s l _).bind
    ((getSize_yields _).bind (hx.more.bind ((getSize_yields _).bind ?_))))
  have hstart : (s.append (l ++ [elem .jmp 0])).size = s.size + words l + 2 := by
    simp [Nat.add_assoc]
  have hend : (s.append (l ++ [elem .jmp 0] ++ code)).size = s.size + words l + 2 + words code := by
    simp [Nat.add_assoc]
  rw [hstart, hend, List.append_assoc, List.singleton_append]
  exact (setArg_yields s l code .jmp 0 _).bind (jumpBack_yields ht _ _)

/-- **The code of a statement.** -/
theorem generateHelper_stmt (st : Stmt) : ∀ {s : GState}, s.funcTable = t →
    s.currentFunc = name →
    Appends (generateHelper junk (st.node name)) s (st.emit t junk name s.size) := by
  induction st with
  | skip => exact fun _ _ => .pure _
  | seq st rest ih₁ ih₂ =>
      intro s ht hname
      have hrun : generateHelper junk ((Stmt.seq st rest).node name) =
          (generateHelper junk (st.node name) >>= fun _ =>
            generateHelper junk (rest.node name) >>= fun _ => pure ()) := rfl
      rw [hrun, Stmt.emit]
      refine (ih₁ ht hname).bind ?_
      exact (ih₂ (s := s.append _) ht hname).bind_nil (.pure _)
  | simple st =>
      intro s ht _
      have hrun : generateHelper junk ((Stmt.simple st).node name) =
          (generateHelper junk (st.node name) >>= fun _ => pure () >>= fun _ => pure ()) := rfl
      exact generateHelper_inner hrun (generateHelper_simple st ht)
  | call g args =>
      intro s ht _
      have hrun : generateHelper junk ((Stmt.call g args).node name) =
          ((generateHelper junk (args.node (.var name)) >>= fun _ => pushFcall junk g) >>=
            fun _ => pure () >>= fun _ => pure ()) := rfl
      rw [hrun]
      refine Appends.bind_nil ?_ (.bind_nil (.pure _) (.pure _))
      subst ht
      exact (generateHelper_args args rfl).bind (pushFcall_appends junk g _)
  | print e =>
      intro s ht _
      have hrun : generateHelper junk ((Stmt.print e).node name) =
          ((generateHelper junk (e.node (.var name)) >>= fun _ => pushElem .print 0) >>=
            fun _ => pure () >>= fun _ => pure ()) := rfl
      rw [hrun]
      refine Appends.bind_nil ?_ (.bind_nil (.pure _) (.pure _))
      exact (generateHelper_expr e ht).bind (pushElem_zero _ _)
  | ret e =>
      intro s ht hname
      have hrun : generateHelper junk ((Stmt.ret e).node name) =
          ((generateHelper junk (exprNode? (.var name) e) >>= fun _ =>
            (get : G GState) >>= fun s => derefCallee s.currentFunc >>= fun func =>
              pushFuncEpilog func >>= fun _ => pushElem .ret 0) >>=
            fun _ => pure () >>= fun _ => pure ()) := rfl
      rw [hrun, Stmt.emit, List.append_assoc]
      refine Appends.bind_nil ?_ (.bind_nil (.pure _) (.pure _))
      refine (generateHelper_expr? ht).bind (.read fun s₁ s₂ hget => ?_)
      cases hget
      refine ⟨rfl, ?_⟩
      rw [GState.append_currentFunc, hname]
      exact pushReturn_appends (s := s.append _) ht
  | ifThen c st ih =>
      intro s ht hname
      have hrun : generateHelper junk ((Stmt.ifThen c st).node name) =
          (generateHelper junk (c.node (.var name)) >>= fun _ => current >>= fun i =>
            patch i (fun elem => { elem with instr := negJmpInstr elem.instr }) >>= fun _ =>
              generateHelper junk (st.node name) >>= fun _ => getSize >>= fun n => setArg i n) :=
        rfl
      rw [hrun]
      apply Yields.appends
      let ops := c.operands t junk name
      have hcond : Yields _ s () (s.append (ops ++ [elem c.op.jmp 0])) :=
        (generateHelper_cond ht).yields
      refine hcond.bind ((current_yields s ops _).bind ((negate_yields s ops c.op).bind ?_))
      have hbody := (ih (s := s.append (ops ++ [elem (negJmpInstr c.op.jmp) 0])) ht hname).more
      have hsize : (s.append (ops ++ [elem (negJmpInstr c.op.jmp) 0])).size =
          s.size + words ops + 2 := by simp [Nat.add_assoc]
      rw [hsize, List.append_assoc, List.singleton_append] at hbody
      refine hbody.bind ((getSize_yields _).bind ?_)
      have hpatch := setArg_yields s ops (st.emit t junk name (s.size + words ops + 2))
        (negJmpInstr c.op.jmp) 0
        (s.size + words ops + 2 + words (st.emit t junk name (s.size + words ops + 2)))
      have hcode : (Stmt.ifThen c st).emit t junk name s.size = ops ++ elem (negJmpInstr c.op.jmp)
          (s.size + words ops + 2 + words (st.emit t junk name (s.size + words ops + 2))) ::
            st.emit t junk name (s.size + words ops + 2) := by
        simp [Stmt.emit, Cond.emit, ops]
      rw [hcode]
      simpa [Nat.add_assoc] using hpatch
  | ifElse c s₁ s₂ ih₁ ih₂ =>
      intro s ht hname
      have hrun : generateHelper junk ((Stmt.ifElse c s₁ s₂).node name) =
          (generateHelper junk (c.node (.var name)) >>= fun _ => current >>= fun i =>
            patch i (fun elem => { elem with instr := negJmpInstr elem.instr }) >>= fun _ =>
              generateHelper junk (s₁.node name) >>= fun _ =>
                if s₂.node name = .null then getSize >>= fun n => setArg i n
                else pushElem .jmp 0 >>= fun _ => current >>= fun j => getSize >>= fun n =>
                  setArg i n >>= fun _ => generateHelper junk (s₂.node name) >>= fun _ =>
                    getSize >>= fun n => setArg j n) := rfl
      simp only [if_neg s₂.node_ne_null] at hrun
      rw [hrun]
      apply Yields.appends
      let ops := c.operands t junk name
      let neg (n : ℕ) := elem (negJmpInstr c.op.jmp) n
      have hcond : Yields _ s () (s.append (ops ++ [elem c.op.jmp 0])) :=
        (generateHelper_cond ht).yields
      refine hcond.bind ((current_yields s ops _).bind ((negate_yields s ops c.op).bind ?_))
      have hthen := (ih₁ (s := s.append (ops ++ [neg 0])) ht hname).more
      have hsize : (s.append (ops ++ [neg 0])).size = s.size + words ops + 2 := by
        simp [neg, Nat.add_assoc]
      rw [hsize, List.append_assoc, List.singleton_append] at hthen
      generalize hcode₁ : s₁.emit t junk name (s.size + words ops + 2) = code₁ at hthen
      have hjmp := (pushElem_zero (s.append (ops ++ neg 0 :: code₁)) .jmp).more
      refine hthen.bind (hjmp.bind ((current_yields s (ops ++ neg 0 :: code₁) _).bind
        ((getSize_yields _).bind ?_)))
      let middle := s.size + words ops + 2 + words code₁ + 2
      have hmiddle : (s.append ((ops ++ neg 0 :: code₁) ++ [elem .jmp 0])).size = middle := by
        simp [neg, middle, Nat.add_assoc]
      have hpatch := setArg_yields s ops (code₁ ++ [elem .jmp 0]) (negJmpInstr c.op.jmp) 0 middle
      rw [hmiddle]
      have helse := (ih₂ (s := s.append (ops ++ neg middle :: (code₁ ++ [elem .jmp 0]))) ht
        hname).more
      have hsize₂ : (s.append (ops ++ neg middle :: (code₁ ++ [elem .jmp 0]))).size = middle := by
        simp [neg, middle, Nat.add_assoc]
      rw [hsize₂] at helse
      generalize hcode₂ : s₂.emit t junk name middle = code₂ at helse
      have hlast := setArg_yields s (ops ++ neg middle :: code₁) code₂ .jmp 0 (middle + words code₂)
      have hcode : (Stmt.ifElse c s₁ s₂).emit t junk name s.size =
          (ops ++ neg middle :: code₁) ++ elem .jmp (middle + words code₂) :: code₂ := by
        simp only [Stmt.emit]
        rw [hcode₁, hcode₂]
        simp [Cond.emit, ops, neg, middle]
      have hlen : (ops ++ neg 0 :: code₁).length = (ops ++ neg middle :: code₁).length := by simp
      have hend : (s.append (ops ++ neg middle :: (code₁ ++ [elem .jmp 0]) ++ code₂)).size =
          middle + words code₂ := by
        simp [neg, middle, Nat.add_assoc]
      have hlist (n : ℕ) (l : List CodeElem) : ops ++ neg n :: (code₁ ++ [elem .jmp 0]) ++ l =
          (ops ++ neg n :: code₁) ++ elem .jmp 0 :: l := by simp
      have hstart := hlist 0 []
      rw [List.append_nil] at hstart
      rw [hcode, ← hstart, hlen]
      refine hpatch.bind (helse.bind ((getSize_yields _).bind ?_))
      rw [hend, hlist]
      exact hlast
  | whileLoop c body ih =>
      intro s ht hname
      have hrun : generateHelper junk ((Stmt.whileLoop c body).node name) =
          (pushElem .jmp 0 >>= fun _ => current >>= fun i => getSize >>= fun back =>
            generateHelper junk (body.node name) >>= fun _ => getSize >>= fun n =>
              setArg i n >>= fun _ => generateHelper junk (c.node (.var name)) >>= fun _ =>
                current >>= fun k => setArg k back) := rfl
      rw [hrun]
      have hbody := ih (s := s.append ([] ++ [elem .jmp 0])) ht hname
      have hsize : (s.append ([] ++ [elem .jmp 0])).size = s.size + 2 := by simp
      rw [hsize] at hbody
      have hloop := @loop_yields t junk name c s ht [] _ _ hbody
      rw [GState.append_nil] at hloop
      exact hloop.appends
  | forLoop init c x e body ih =>
      intro s ht hname
      have hrun : generateHelper junk ((Stmt.forLoop init c x e body).node name) =
          (generateHelper junk (init.node name) >>= fun _ =>
            pushElem .jmp 0 >>= fun _ => current >>= fun i => getSize >>= fun back =>
              (generateHelper junk (body.node name) >>= fun _ =>
                generateHelper junk ((Simple.varAssign x e).node name)) >>= fun _ =>
                getSize >>= fun n => setArg i n >>= fun _ =>
                  generateHelper junk (c.node (.var name)) >>= fun _ =>
                    current >>= fun k => setArg k back) := by
        simp only [bind_assoc]
        rfl
      rw [hrun]
      let before := init.emit t junk name
      have hbody := ih (s := s.append (before ++ [elem .jmp 0])) ht hname
      have hsize : (s.append (before ++ [elem .jmp 0])).size = s.size + words before + 2 := by
        simp [Nat.add_assoc]
      rw [hsize] at hbody
      have hupdate : Appends (generateHelper junk (body.node name) >>= fun _ =>
          generateHelper junk ((Simple.varAssign x e).node name))
          (s.append (before ++ [elem .jmp 0])) _ := hbody.bind (generateHelper_simple _ ht)
      exact ((generateHelper_simple init ht).yields.bind (loop_yields ht hupdate)).appends
  | doLoop body c ih =>
      intro s ht hname
      have hrun : generateHelper junk ((Stmt.doLoop body c).node name) =
          (getSize >>= fun back => generateHelper junk (body.node name) >>= fun _ =>
            generateHelper junk (c.node (.var name)) >>= fun _ =>
              current >>= fun k => setArg k back) := by
        cases body <;> rfl
      rw [hrun]
      refine Yields.appends ((getSize_yields s).bind ?_)
      exact (ih ht hname).yields.bind (jumpBack_yields ht _ _)

end Statements

/-! ## Functions -/

theorem endsInRet_append (before : Bool) (l l' : List CodeElem) :
    endsInRet (endsInRet before l) l' = endsInRet before (l ++ l') := by
  cases hl : l'.getLast? with
  | none =>
      obtain rfl := List.getLast?_eq_none_iff.mp hl
      rw [List.append_nil]
      rfl
  | some last =>
      have happend : (l ++ l').getLast? = some last := by
        rw [List.getLast?_append, hl]
        rfl
      simp only [endsInRet, hl, happend]

/-- Code has been appended, and the table is `t`. -/
structure GState.Extends (s s' : GState) (l : List CodeElem) (t : FuncTable) : Prop where
  code : s'.code = s.code ++ l
  size : s'.size = s.size + words l
  funcTable : s'.funcTable = t
  error : s'.error = s.error
  lt : s.size < 2 ^ 31 → s'.size < 2 ^ 31

section Functions
variable {t : FuncTable} {junk : Junk}

theorem closeFunc_appends {s : GState} {name : String} (ht : s.funcTable = t) :
    Appends (closeFunc name) s
      (if endsInRet false s.code then [] else epilogCode t name ++ [elem .ret 0]) := by
  refine .read fun last s₁ h => ?_
  by_cases hnil : s.code = []
  · rw [current, if_pos hnil] at h
    cases h
  · rw [current, if_neg hnil] at h
    cases h
    refine ⟨rfl, .read fun s₁ s₂ hget => ?_⟩
    cases hget
    refine ⟨rfl, ?_⟩
    have hlast : s.code.getLast? = some (s.code.getD (s.code.length - 1) ⟨.nop, 0, none⟩) := by
      rw [List.getLast?_eq_getElem?, List.getD_eq_getElem?_getD,
        List.getElem?_eq_getElem (by have := List.length_pos_iff.mpr hnil; omega)]
      rfl
    have hends : endsInRet false s.code =
        decide ((s.code.getD (s.code.length - 1) ⟨.nop, 0, none⟩).instr = .ret) := by
      rw [endsInRet, hlast]
    rw [hends]
    by_cases hret : (s.code.getD (s.code.length - 1) ⟨.nop, 0, none⟩).instr = .ret
    · rw [if_pos hret, if_pos (decide_eq_true hret)]
      exact .pure s
    · rw [if_neg hret, if_neg (by simpa using hret)]
      exact pushReturn_appends ht

/-- **The code of a function.** -/
theorem generateHelper_func {f : Func} {s s' : GState}
    (h : generateHelper junk (Item.func f).node s = .ok () s') :
    s.Extends s' (f.emit (setAddr s.funcTable f.name s.size) junk (endsInRet false s.code) s.size)
      (setAddr s.funcTable f.name s.size) := by
  have hrun : generateHelper junk (Item.func f).node =
      (openFunc f.name >>= fun _ => (derefCallee f.name >>= pushFuncProlog) >>= fun _ =>
        generateHelper junk (f.body.node f.name) >>= fun _ => closeFunc f.name) := by
    simp only [bind_assoc]
    rfl
  rw [hrun] at h
  obtain ⟨_, s₁, hopen, h⟩ := bind_eq_ok h
  obtain ⟨-, rfl⟩ := EStateM.Result.ok.inj hopen
  let t' := setAddr s.funcTable f.name s.size
  let s₁ : GState := { s with currentFunc := f.name, funcTable := t' }
  let prolog := prologCode t' f.name
  let body := f.body.emit t' junk f.name (s.size + words prolog)
  have hprolog : Appends (derefCallee f.name >>= pushFuncProlog) s₁ prolog :=
    pushFuncProlog_appends rfl
  have hbody : Appends (generateHelper junk (f.body.node f.name)) (s₁.append prolog) body :=
    generateHelper_stmt f.body rfl rfl
  have hclose := @closeFunc_appends t' ((s₁.append prolog).append body) f.name rfl
  have happends : Appends ((derefCallee f.name >>= pushFuncProlog) >>= fun _ =>
      generateHelper junk (f.body.node f.name) >>= fun _ => closeFunc f.name) s₁ _ :=
    hprolog.bind (hbody.bind hclose)
  have hends : endsInRet false ((s₁.append prolog).append body).code =
      endsInRet (endsInRet false s.code) (prolog ++ body) := by
    simp [GState.append, endsInRet_append, s₁]
  have hcode : prolog ++ (body ++ if endsInRet false ((s₁.append prolog).append body).code then []
      else epilogCode t' f.name ++ [elem .ret 0]) =
      f.emit t' junk (endsInRet false s.code) s.size := by
    rw [hends, Func.emit]
    split <;> simp [prolog, body, t', *]
  rw [hcode] at happends
  obtain ⟨rfl, hlt⟩ := happends s' h
  exact ⟨rfl, rfl, rfl, rfl, hlt⟩

theorem GState.Extends.refl (s : GState) : s.Extends s [] s.funcTable where
  code := s.code.append_nil.symm
  size := rfl
  funcTable := rfl
  error := rfl
  lt := id

theorem GState.Extends.trans {s₁ s₂ s₃ : GState} {l l' : List CodeElem} {t' : FuncTable}
    (h : s₁.Extends s₂ l t) (h' : s₂.Extends s₃ l' t') : s₁.Extends s₃ (l ++ l') t' where
  code := by rw [h'.code, h.code, List.append_assoc]
  size := by rw [h'.size, h.size, words_append, Nat.add_assoc]
  funcTable := h'.funcTable
  error := h'.error.trans h.error
  lt hlt := h'.lt (h.lt hlt)

theorem Appends.extends {x : G Unit} {s s' : GState} {l : List CodeElem} (hx : Appends x s l)
    (h : x s = .ok () s') : s.Extends s' l s.funcTable := by
  obtain ⟨rfl, hlt⟩ := hx s' h
  exact ⟨rfl, rfl, rfl, rfl, hlt⟩

/-- **The code of the functions of a program.** -/
theorem generateHelper_items (items : List Item) : ∀ {s s' : GState},
    generateHelper junk (programNode items) s = .ok () s' →
      s.Extends s' (emitItems junk items s.size (endsInRet false s.code) s.funcTable).1
        (emitItems junk items s.size (endsInRet false s.code) s.funcTable).2 := by
  induction items with
  | nil =>
      intro s s' h
      cases h
      exact .refl s
  | cons item items ih =>
      intro s s' h
      have hrun : generateHelper junk (programNode (item :: items)) =
          (generateHelper junk item.node >>= fun _ =>
            generateHelper junk (programNode items) >>= fun _ => pure ()) := rfl
      rw [hrun] at h
      obtain ⟨_, s₁, hitem, h⟩ := bind_eq_ok h
      obtain ⟨_, s₂, hitems, h⟩ := bind_eq_ok h
      cases h
      cases item with
      | proto p =>
          cases hitem
          exact ih hitems
      | func f =>
          have hf := generateHelper_func hitem
          have hrest := ih hitems
          rw [hf.size, hf.code, ← endsInRet_append, hf.funcTable] at hrest
          exact hf.trans hrest

/-! ## The program -/

theorem pushArgloads_appends (i n : ℕ) (s : GState) :
    Appends (pushArgloads i n) s (argloadCode i n) := by
  induction n generalizing i s with
  | zero => exact .pure s
  | succ n ih => exact (pushElem_appends s .argload i).bind (ih _ _)

/-- Take and load the program arguments. -/
def pushEntryArgs (n : ℕ) : G Unit := do
  if 0 < n then pushElem .prolog (BitVec.ofNat 32 n)
  pushArgloads 0 n

theorem pushEntryArgs_appends (n : ℕ) (s : GState) :
    Appends (pushEntryArgs n) s (entryArgs n) := by
  rw [entryArgs, pushEntryArgs]
  dsimp only
  split
  · exact (pushElem_appends s .prolog n).bind (pushArgloads_appends 0 n _)
  · exact pushArgloads_appends 0 n s

/-- The code of the functions of a program, and the final table. -/
def programCode (junk : Junk) (items : List Item) (argCount : ℕ) (t : FuncTable) :
    List CodeElem × FuncTable :=
  emitItems junk items (words (entryCode argCount 0)) false t

/-- The walk over the program when `main` is known. -/
def generateMain (junk : Junk) (items : List Item) (main : FuncInfo) : G Unit := do
  pushEntryArgs main.argCount
  pushCall .call 0 (some "main")
  let entryPoint ← current
  pushElem .finish 0
  generateHelper junk (programNode items)
  let main ← derefCallee "main"
  patch entryPoint fun elem => { elem with arg := main.addr.getD (junk "main") }

theorem generateHelper_head (junk : Junk) (items : List Item) (s : GState) :
    generateHelper junk (headNode items) s = match s.funcTable "main" with
      | none => .ok () { s with error := true }
      | some main => generateMain junk items main s := by
  unfold headNode inner
  rw [generateHelper, run_bind, run_get]
  dsimp only
  cases hmain : s.funcTable "main" with
  | none => rfl
  | some main =>
      change _ = generateMain junk items main s
      unfold generateMain pushEntryArgs
      dsimp only
      split
      · rw [bind_assoc]
      · rfl

@[simp] theorem words_entryCode (n : ℕ) (addr : Word) :
    words (entryCode n addr) = words (entryCode n 0) := by simp [entryCode, CodeElem.width]

theorem generateMain_eq_ok {items : List Item} {main : FuncInfo} {s s' : GState}
    (h : generateMain junk items main s = .ok () s') :
    s.Extends s' (entryCode main.argCount (callAddr s'.funcTable junk "main") ++
      (emitItems junk items (s.size + words (entryCode main.argCount 0)) false s.funcTable).1)
      (emitItems junk items (s.size + words (entryCode main.argCount 0)) false s.funcTable).2 := by
  let args := entryArgs main.argCount
  let call (addr : Word) : CodeElem := ⟨.call, addr, some "main"⟩
  obtain ⟨_, s₀, h₀, h⟩ := bind_eq_ok h
  obtain ⟨rfl, hlt₀⟩ := pushEntryArgs_appends main.argCount s s₀ h₀
  obtain ⟨_, s₁, h₁, h⟩ := bind_eq_ok h
  obtain ⟨rfl, hlt₁⟩ := pushCall_appends _ _ _ _ s₁ h₁
  rw [GState.append_append] at h hlt₁
  obtain ⟨i, s₂, h₂, h⟩ := bind_eq_ok h
  obtain ⟨rfl, rfl, -⟩ := current_yields s args _ i s₂ h₂
  obtain ⟨_, s₃, h₃, h⟩ := bind_eq_ok h
  obtain ⟨hs₃, hlt₃⟩ := pushElem_zero _ _ s₃ h₃
  rw [GState.append_append, List.append_assoc] at hs₃
  obtain ⟨_, s₄, h₄, h⟩ := bind_eq_ok h
  have hitems := generateHelper_items items h₄
  obtain ⟨info, s₅, h₅, hpatch⟩ := bind_eq_ok h
  obtain ⟨rfl, hinfo⟩ := derefCallee_eq_ok h₅
  obtain rfl := (EStateM.Result.ok.inj hpatch).2
  have hentry (addr : Word) : entryCode main.argCount addr = args ++ [call addr, elem .finish 0] :=
    rfl
  have hsize : s₃.size = s.size + words (entryCode main.argCount 0) := by
    rw [hs₃, hentry]
    rfl
  have hends : endsInRet false s₃.code = false := by
    rw [hs₃, GState.append, endsInRet, ← List.append_assoc, List.getLast?_append]
    rfl
  have htable : s₃.funcTable = s.funcTable := by rw [hs₃, GState.append_funcTable]
  rw [hsize, hends, htable] at hitems
  have haddr : callAddr s₅.funcTable junk "main" = info.addr.getD (junk "main") := by
    simp [callAddr, hinfo]
  have hlen : s.code.length + args.length = (s.code ++ args).length := by simp
  have hcode := hitems.code
  rw [hs₃, GState.append] at hcode
  constructor
  · rw [hentry]
    simp only [hcode]
    rw [hlen]
    simp only [List.append_assoc, List.cons_append, List.nil_append]
    rw [← List.append_assoc, modify_length_append]
    simp [call, haddr]
  · rw [words_append, words_entryCode, ← Nat.add_assoc]
    exact hsize ▸ hitems.size
  · exact hitems.funcTable
  · exact hitems.error.trans (by rw [hs₃]; rfl)
  · exact fun hlt => hitems.lt (hlt₃ (hlt₁ (hlt₀ hlt)))

/-- **The list of a program** is the entry, which calls `main` where its code has been
placed, and the code of the functions. -/
theorem generateCode_eq_some {items : List Item} {code : List CodeElem} {s : GState}
    (h : generateCode junk t (headNode items) = .ok (some code) s) :
    ∃ main, t "main" = some main ∧
      s.funcTable = (programCode junk items main.argCount t).2 ∧
      code = entryCode main.argCount (callAddr s.funcTable junk "main") ++
        (programCode junk items main.argCount t).1 ∧
      words code < 2 ^ 31 := by
  unfold generateCode at h
  obtain ⟨_, s₁, hrun, h⟩ := bind_eq_ok h
  obtain ⟨_, s₂, hget, h⟩ := bind_eq_ok h
  cases hget
  rw [generateHelper_head] at hrun
  cases hmain : t "main" with
  | none =>
      simp only [GState.initial, hmain] at hrun
      cases hrun
      cases h
  | some main =>
      simp only [GState.initial, hmain] at hrun
      have hext := generateMain_eq_ok hrun
      rw [if_neg (by simp [hext.error])] at h
      cases h
      simp only [Nat.zero_add] at hext
      refine ⟨main, rfl, hext.funcTable, hext.code, ?_⟩
      have hlt := hext.lt (by norm_num)
      have hsize := hext.size
      have hcode := hext.code
      simp only [Nat.zero_add, List.nil_append] at hsize hcode
      rwa [hcode, ← hsize]

/-- **Programs that compile** have been accepted, and their list has been generated. -/
theorem compile_eq_some {fuel : ℕ} {first : List Token} {code : List CodeElem}
    (h : compile junk fuel first = some code) :
    ∃ items s s', parseTokenlist fuel first = .ok (headNode items) s ∧
      Registers (fun _ => none) items s.funcTable ∧ itemsSize items < first.length ∧
      generateCode junk s.funcTable (headNode items) = .ok (some code) s' := by
  rw [compile] at h
  cases hparse : parseTokenlist fuel first with
  | error e s =>
      rw [hparse] at h
      cases h
  | ok head s =>
      rw [hparse] at h
      dsimp only at h
      by_cases hnull : head = .null
      · rw [if_pos hnull] at h
        cases h
      · rw [if_neg hnull] at h
        obtain ⟨items, rfl, hreg, hsize⟩ := parseTokenlist_spec hparse hnull
        cases hgen : generateCode junk s.funcTable (headNode items) with
        | error e s' =>
            rw [hgen] at h
            cases h
        | ok result s' =>
            rw [hgen] at h
            dsimp only at h
            subst h
            exact ⟨items, s, s', rfl, hreg, hsize, hgen⟩

end Functions

end Bispe
