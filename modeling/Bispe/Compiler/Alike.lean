import Bispe.Compiler.Encoding
import Bispe.Compiler.Generation

/-!
# What `malloc` leaves

A function that is called before its code has been generated has no address yet, and the
generator takes what `malloc` has left in the field.  That word becomes the operand of the
call and nothing else: whether a program is accepted does not depend on it.

## Main definitions

* `GState.Alike` — states of the generator that differ in operands only.
* `Alike` — two runs of the generator that do the same but for operands.
* `generateHelper_alike` — the generator never looks at an operand.
* `compile_alike` — a program is accepted whatever `malloc` leaves.
-/

namespace Bispe

open Effect

/-- The states differ in operands only. -/
structure GState.Alike (s s' : GState) : Prop where
  instrs : s'.code.map CodeElem.instr = s.code.map CodeElem.instr
  size : s'.size = s.size
  currentFunc : s'.currentFunc = s.currentFunc
  error : s'.error = s.error
  funcTable : s'.funcTable = s.funcTable

/-- In states that differ in operands only, `x` and `y` do the same but for operands. -/
abbrev Alike {α : Type} (x y : G α) : Prop := Similar GState.Alike x y

/-! ## Steps -/

theorem pushCall_alike (instr : InstrType) (arg arg' : Word) (callee : Option String) :
    Alike (pushCall instr arg callee) (pushCall instr arg' callee) := by
  intro s s' h
  have hwidth : (CodeElem.mk instr arg' callee).width = (CodeElem.mk instr arg callee).width := rfl
  unfold pushCall
  dsimp only
  rw [h.size, hwidth]
  by_cases hlt : s.size + (CodeElem.mk instr arg callee).width < 2 ^ 31
  · rw [if_pos hlt, if_pos hlt]
    refine .ok () ⟨?_, rfl, h.currentFunc, h.error, h.funcTable⟩
    rw [List.map_append, List.map_append, h.instrs]
    rfl
  · rw [if_neg hlt, if_neg hlt]
    exact .error ..

theorem pushElem_alike (instr : InstrType) (arg : Word) :
    Alike (pushElem instr arg) (pushElem instr arg) := pushCall_alike instr arg arg none

theorem current_alike : Alike current current := by
  intro s s' h
  have hlength : s'.code.length = s.code.length := by
    simpa using congrArg List.length h.instrs
  unfold current
  by_cases hnil : s.code = []
  · have hnil' : s'.code = [] := by
      rw [← List.length_eq_zero_iff, hlength, hnil, List.length_nil]
    rw [if_pos hnil, if_pos hnil']
    exact .error ..
  · have hnil' : s'.code ≠ [] := by
      rwa [ne_eq, ← List.length_eq_zero_iff, hlength, List.length_eq_zero_iff]
    rw [if_neg hnil, if_neg hnil', hlength]
    exact .ok _ h

/-- A change of an element that depends on its instruction only. -/
theorem patch_alike (i : ℕ) {f g : CodeElem → CodeElem} {F : InstrType → InstrType}
    (hf : ∀ e, (f e).instr = F e.instr) (hg : ∀ e, (g e).instr = F e.instr) :
    Alike (patch i f) (patch i g) := by
  have hmodify {f : CodeElem → CodeElem} (hf : ∀ e, (f e).instr = F e.instr)
      (l : List CodeElem) :
      (l.modify i f).map CodeElem.instr = (l.map CodeElem.instr).modify i F := by
    refine List.ext_getElem? fun j => ?_
    simp only [List.getElem?_map, List.getElem?_modify, Functor.map, Option.map_map]
    congr 1
    ext e
    by_cases hi : i = j <;> simp [hi, hf]
  refine .modify fun s s' h => ⟨?_, h.size, h.currentFunc, h.error, h.funcTable⟩
  rw [hmodify hf, hmodify hg, h.instrs]

theorem setArg_alike (i arg : ℕ) : Alike (setArg i arg) (setArg i arg) :=
  patch_alike i (F := id) (fun _ => rfl) fun _ => rfl

theorem getSize_alike : Alike getSize getSize := by
  intro s s' h
  rw [getSize, getSize, h.size]
  exact .ok _ h

theorem derefCallee_alike (name : String) : Alike (derefCallee name) (derefCallee name) := by
  intro s s' h
  unfold derefCallee
  rw [h.funcTable]
  cases s.funcTable name with
  | none => exact .error ..
  | some func => exact .ok func h

theorem varPos_alike (func name : String) : Alike (varPos func name) (varPos func name) := by
  refine (derefCallee_alike func).bind fun info => ?_
  cases getVar name info with
  | none => exact .throw _
  | some var => exact .pure _

theorem openFunc_alike (name : String) : Alike (openFunc name) (openFunc name) := by
  refine .modify fun s s' h => ⟨h.instrs, h.size, rfl, h.error, ?_⟩
  simp only [h.funcTable, h.size]

theorem pushStores_alike (n : ℕ) : Alike (pushStores n) (pushStores n) := by
  induction n with
  | zero => exact .pure ()
  | succ n ih => exact (pushElem_alike _ _).bind fun _ => ih

theorem pushArgloads_alike (i n : ℕ) : Alike (pushArgloads i n) (pushArgloads i n) := by
  induction n generalizing i with
  | zero => exact .pure ()
  | succ n ih => exact (pushElem_alike _ _).bind fun _ => ih _

theorem pushFuncProlog_alike (func : FuncInfo) :
    Alike (pushFuncProlog func) (pushFuncProlog func) := .ite (pushElem_alike _ _) (.pure ())

theorem pushFuncEpilog_alike (func : FuncInfo) :
    Alike (pushFuncEpilog func) (pushFuncEpilog func) := .ite (pushElem_alike _ _) (.pure ())

/-- The address may be one that `malloc` has left. -/
theorem pushFcall_alike (junk other : Junk) (name : String) :
    Alike (pushFcall junk name) (pushFcall other name) :=
  (derefCallee_alike name).bind fun _ => (pushStores_alike _).bind fun _ => pushCall_alike _ _ _ _

theorem closeFunc_alike (name : String) : Alike (closeFunc name) (closeFunc name) := by
  refine current_alike.bind fun last => .get fun s s' h => ?_
  have hinstr : (s'.code.getD last ⟨.nop, 0, none⟩).instr =
      (s.code.getD last ⟨.nop, 0, none⟩).instr := by
    have hget (l : List CodeElem) : (l.getD last ⟨.nop, 0, none⟩).instr =
        ((l.map CodeElem.instr)[last]?).getD .nop := by
      rw [List.getElem?_map, List.getD_eq_getElem?_getD]
      cases l[last]? <;> rfl
    rw [hget, hget, h.instrs]
  rw [hinstr]
  exact .ite (.pure ()) ((derefCallee_alike name).bind fun func =>
    (pushFuncEpilog_alike func).bind fun _ => pushElem_alike _ _)

/-! ## The generator -/

/-- The third child. -/
def Node.right : Node → Node
  | null => null
  | mk _ _ _ _ r => r

section Nodes
variable {junk other : Junk} {val : NodeVal} {left middle right : Node}

/-- The children of `left` are those of a `for` loop. -/
theorem generateHelper_loop_alike
    (hleft : Alike (generateHelper junk left) (generateHelper other left))
    (hinit : Alike (generateHelper junk left.left) (generateHelper other left.left))
    (hcond : Alike (generateHelper junk left.middle) (generateHelper other left.middle))
    (hupdate : Alike (generateHelper junk left.right) (generateHelper other left.right))
    (hbody : Alike (generateHelper junk middle) (generateHelper other middle)) :
    Alike (generateHelper junk (.mk .astLoop val left middle right))
      (generateHelper other (.mk .astLoop val left middle right)) := by
  by_cases hfor : ∃ val init condition update, left = .mk .astForLoopHead val init condition update
  · obtain ⟨_, _, _, _, rfl⟩ := hfor
    exact hinit.bind fun _ => (pushElem_alike _ _).bind fun _ => current_alike.bind fun _ =>
      getSize_alike.bind fun _ => hbody.bind fun _ => hupdate.bind fun _ =>
        getSize_alike.bind fun _ => (setArg_alike _ _).bind fun _ => hcond.bind fun _ =>
          current_alike.bind fun _ => setArg_alike _ _
  have hother : ∀ val init condition update,
      left = .mk .astForLoopHead val init condition update → False :=
    fun val init condition update h => hfor ⟨val, init, condition, update, h⟩
  by_cases hwhile : left.type = some .astCondition
  · rw [generateHelper, generateHelper, if_pos hwhile, if_pos hwhile]
    · exact (pushElem_alike _ _).bind fun _ => current_alike.bind fun _ =>
        getSize_alike.bind fun _ => hbody.bind fun _ => getSize_alike.bind fun _ =>
          (setArg_alike _ _).bind fun _ => hleft.bind fun _ =>
            current_alike.bind fun _ => setArg_alike _ _
    all_goals exact hother
  · rw [generateHelper, generateHelper, if_neg hwhile, if_neg hwhile]
    · exact getSize_alike.bind fun _ => hleft.bind fun _ => hbody.bind fun _ =>
        current_alike.bind fun _ => setArg_alike _ _
    all_goals exact hother

/-- A branch patches its jumps. -/
theorem generateHelper_branch_alike
    (hleft : Alike (generateHelper junk left) (generateHelper other left))
    (hmiddle : Alike (generateHelper junk middle) (generateHelper other middle))
    (hright : Alike (generateHelper junk right) (generateHelper other right)) :
    Alike (generateHelper junk (.mk .astBranch val left middle right))
      (generateHelper other (.mk .astBranch val left middle right)) := by
  refine hleft.bind fun _ => current_alike.bind fun _ =>
    (patch_alike _ (F := negJmpInstr) (fun _ => rfl) fun _ => rfl).bind fun _ =>
      hmiddle.bind fun _ => .ite ?_ ?_
  · exact getSize_alike.bind fun _ => setArg_alike _ _
  · exact (pushElem_alike _ _).bind fun _ => current_alike.bind fun _ =>
      getSize_alike.bind fun _ => (setArg_alike _ _).bind fun _ => hright.bind fun _ =>
        getSize_alike.bind fun _ => setArg_alike _ _

/-- The call of `main` is patched in the end. -/
theorem generateHelper_head_alike
    (hleft : Alike (generateHelper junk left) (generateHelper other left)) :
    Alike (generateHelper junk (.mk .astHead val left middle right))
      (generateHelper other (.mk .astHead val left middle right)) := by
  refine .get fun s s' h => ?_
  rw [h.funcTable]
  cases s.funcTable "main" with
  | none => exact .modify fun s s' h => ⟨h.instrs, h.size, h.currentFunc, rfl, h.funcTable⟩
  | some main =>
      have hrest := (pushArgloads_alike 0 main.argCount).bind fun _ =>
        (pushCall_alike .call 0 0 (some "main")).bind fun _ => current_alike.bind fun entry =>
          (pushElem_alike .finish 0).bind fun _ => hleft.bind fun _ =>
            (derefCallee_alike "main").bind fun func =>
              patch_alike entry (F := id)
                (f := fun elem => { elem with arg := func.addr.getD (junk "main") })
                (g := fun elem => { elem with arg := func.addr.getD (other "main") })
                (fun _ => rfl) fun _ => rfl
      exact .ite ((pushElem_alike _ _).bind fun _ => hrest) hrest

/-- A definition or an assignment. -/
theorem store_alike (func name : String)
    (hleft : Alike (generateHelper junk left) (generateHelper other left)) :
    Alike (if left = .null then pure () else do
        generateHelper junk left
        pushElem .store (← varPos func name))
      (if left = .null then pure () else do
        generateHelper other left
        pushElem .store (← varPos func name)) :=
  .ite (.pure ()) (hleft.bind fun _ => (varPos_alike _ _).bind fun _ => pushElem_alike _ _)

end Nodes

/-- **The generator never looks at an operand.** -/
theorem generateHelper_alike (junk other : Junk) (node : Node) :
    Alike (generateHelper junk node) (generateHelper other node) := by
  let P (node : Node) : Prop := Alike (generateHelper junk node) (generateHelper other node)
  -- a `for` loop looks at the children of its head
  suffices hall : P node ∧ P node.left ∧ P node.middle ∧ P node.right from hall.1
  induction node with
  | null => exact ⟨.pure (), .pure (), .pure (), .pure ()⟩
  | mk type val left middle right ihl ihm ihr =>
      refine ⟨?_, ihl.1, ihm.1, ihr.1⟩
      have hchildren : Alike (do
            generateHelper junk left
            generateHelper junk middle
            generateHelper junk right)
          (do
            generateHelper other left
            generateHelper other middle
            generateHelper other right) := ihl.1.bind fun _ => ihm.1.bind fun _ => ihr.1
      cases type with
      | astEmpty => exact .pure ()
      | astIdentifier =>
          cases val with
          | var func name => exact (varPos_alike _ _).bind fun _ => pushElem_alike _ _
          | _ => exact hchildren
      | astIntliteral =>
          cases val with
          | number n => exact pushElem_alike _ _
          | _ => exact hchildren
      | astVarDef | astVarAssign =>
          cases val with
          | var func name => exact store_alike func name ihl.1
          | _ => exact hchildren
      | astPrint => exact ihl.1.bind fun _ => pushElem_alike _ _
      | astReturn =>
          refine ihl.1.bind fun _ => .get fun s s' h => ?_
          rw [h.currentFunc]
          exact (derefCallee_alike _).bind fun _ => (pushFuncEpilog_alike _).bind fun _ =>
            pushElem_alike _ _
      | astExpression | astCondition => exact ihl.1.bind fun _ => ihr.1.bind fun _ => ihm.1
      | astNumopLeaf =>
          cases val with
          | type op =>
              simp only [P, generateHelper]
              cases numopInstr op with
              | none => exact .pure ()
              | some instr => exact pushElem_alike _ _
          | _ => exact hchildren
      | astBoolopLeaf =>
          cases val with
          | type op => exact pushElem_alike _ _
          | _ => exact hchildren
      | astBranch => exact generateHelper_branch_alike ihl.1 ihm.1 ihr.1
      | astLoop => exact generateHelper_loop_alike ihl.1 ihl.2.1 ihl.2.2.1 ihl.2.2.2 ihm.1
      | astFcall | astRetFcall =>
          cases val with
          | func name => exact ihl.1.bind fun _ => pushFcall_alike _ _ _
          | _ => exact hchildren
      | astFunction =>
          cases val with
          | func name =>
              exact (openFunc_alike _).bind fun _ => (derefCallee_alike _).bind fun _ =>
                (pushFuncProlog_alike _).bind fun _ => ihl.1.bind fun _ => closeFunc_alike _
          | _ => exact hchildren
      | astHead => exact generateHelper_head_alike ihl.1
      | _ => exact hchildren

/-- **Acceptance does not depend on what `malloc` leaves.** -/
theorem generateCode_alike {junk : Junk} (other : Junk) {t : FuncTable} {head : Node}
    {code : List CodeElem} {s : GState} (h : generateCode junk t head = .ok (some code) s) :
    ∃ code' s', generateCode other t head = .ok (some code') s' := by
  unfold generateCode at h ⊢
  obtain ⟨_, s₁, hrun, h⟩ := bind_eq_ok h
  obtain ⟨_, s₂, hget, h⟩ := bind_eq_ok h
  cases hget
  have halike := generateHelper_alike junk other head (.initial t) (.initial t)
    ⟨rfl, rfl, rfl, rfl, rfl⟩
  rw [hrun] at halike
  generalize hrun' : generateHelper other head (.initial t) = r at halike
  cases halike with
  | @ok _ _ s₁' hs =>
      dsimp only
      rw [bind_ok hrun', bind_ok (run_get s₁'), hs.error]
      cases herror : s₁.error with
      | true =>
          rw [if_pos herror] at h
          cases h
      | false => exact ⟨s₁'.code, s₁', rfl⟩

theorem compile_alike {junk : Junk} (other : Junk) {fuel : ℕ} {first : List Token}
    {code : List CodeElem} (h : compile junk fuel first = some code) :
    ∃ code', compile other fuel first = some code' := by
  rw [compile] at h ⊢
  cases hparse : parseTokenlist fuel first with
  | error e s =>
      rw [hparse] at h
      cases h
  | ok head s =>
      rw [hparse] at h
      dsimp only at h ⊢
      by_cases hnull : head = .null
      · rw [if_pos hnull] at h
        cases h
      · rw [if_neg hnull] at h ⊢
        cases hgen : generateCode junk s.funcTable head with
        | error e s' =>
            rw [hgen] at h
            cases h
        | ok list s' =>
            rw [hgen] at h
            obtain rfl : list = some code := h
            obtain ⟨code', s'', hgen'⟩ := generateCode_alike other hgen
            exact ⟨code', by rw [hgen']⟩

end Bispe
