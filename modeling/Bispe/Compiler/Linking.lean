import Bispe.Compiler.Declarations
import Bispe.Compiler.Encoding
import Bispe.Compiler.Generation

/-!
# Addresses

A call is given the address its function has when the call is emitted.  The address is
known from the first instruction of the function on, so calls to the function they are in
or to one before it carry the final address; other calls carry what `malloc` has left in
the field.  Only the call of the entry is patched in the end.

## Main definitions

* `SameFrames` — tables that differ in addresses only.
* `emitItems_split` — the code of one function in that of a program, and its table.
* `CallsTo` — the calls in a code list are those of a phrase.
* `calls_addressed` — the operand of every call of a program.
-/

namespace Bispe

open Effect

/-! ## Tables -/

/-- An entry without its address. -/
def FuncInfo.unplaced (info : FuncInfo) : FuncInfo := { info with addr := none }

/-- The tables differ in addresses only. -/
def SameFrames (t t' : FuncTable) : Prop :=
  ∀ g, (t' g).map FuncInfo.unplaced = (t g).map FuncInfo.unplaced

namespace SameFrames

variable {t t' t'' : FuncTable}

theorem refl (t : FuncTable) : SameFrames t t := fun _ => rfl

theorem trans (h : SameFrames t t') (h' : SameFrames t' t'') : SameFrames t t'' :=
  fun g => (h' g).trans (h g)

/-- What does not depend on the address. -/
theorem map {β : Type} (h : SameFrames t t') {F : FuncInfo → β}
    (hF : ∀ info : FuncInfo, F info.unplaced = F info) (g : String) :
    (t' g).map F = (t g).map F := by
  have hcomp : F = F ∘ FuncInfo.unplaced := by
    ext info
    exact (hF info).symm
  rw [hcomp, ← Option.map_map, ← Option.map_map, h g]

theorem slot (h : SameFrames t t') (name x : String) : slot t' name x = slot t name x := by
  have hpos := h.map (F := fun info => info.pos x) (fun _ => rfl) name
  have hbind (t : FuncTable) : Bispe.slot t name x =
      (((t name).map fun info => info.pos x).join).getD 0 := by
    rw [Bispe.slot]
    cases t name <;> rfl
  rw [hbind, hbind, hpos]

theorem frameSize (h : SameFrames t t') (name : String) :
    frameSize t' name = frameSize t name := by
  rw [Bispe.frameSize, Bispe.frameSize, h.map (fun _ => rfl)]

theorem argCount (h : SameFrames t t') (g : String) :
    callArgCount t' g = callArgCount t g := by
  rw [callArgCount, callArgCount, h.map (fun _ => rfl)]

theorem setAddr (t : FuncTable) (name : String) (base : ℕ) :
    SameFrames t (setAddr t name base) := by
  intro g
  by_cases hg : g = name
  · subst hg
    rw [Bispe.setAddr, Function.update_self, Option.map_map]
    rfl
  · rw [Bispe.setAddr, Function.update_of_ne hg]

end SameFrames

/-! ## The code of one function -/

section Items
variable {junk : Junk} {t : FuncTable}

theorem emitItems_append (l r : List Item) (base : ℕ) (before : Bool) (t : FuncTable) :
    emitItems junk (l ++ r) base before t =
      ((emitItems junk l base before t).1 ++
        (emitItems junk r (base + words (emitItems junk l base before t).1)
          (endsInRet before (emitItems junk l base before t).1)
          (emitItems junk l base before t).2).1,
        (emitItems junk r (base + words (emitItems junk l base before t).1)
          (endsInRet before (emitItems junk l base before t).1)
          (emitItems junk l base before t).2).2) := by
  induction l generalizing base before t with
  | nil => rfl
  | cons item l ih =>
      cases item with
      | proto p => exact ih base before t
      | func f =>
          simp only [List.cons_append, emitItems, ih, words_append, endsInRet_append, Nat.add_assoc,
            List.append_assoc]

theorem emitItems_sameFrames (items : List Item) (base : ℕ) (before : Bool) (t : FuncTable) :
    SameFrames t (emitItems junk items base before t).2 := by
  induction items generalizing base before t with
  | nil => exact .refl t
  | cons item items ih =>
      cases item with
      | proto p => exact ih base before t
      | func f => exact (SameFrames.setAddr t f.name base).trans (ih _ _ _)

/-- The addresses of other functions stay as they are. -/
theorem emitItems_other {items : List Item} {base : ℕ} {before : Bool} {g : String}
    (hg : g ∉ defined items) : (emitItems junk items base before t).2 g = t g := by
  induction items generalizing base before t with
  | nil => rfl
  | cons item items ih =>
      cases item with
      | proto p => exact ih hg
      | func f =>
          rw [defined, List.mem_cons, not_or] at hg
          rw [emitItems, ih hg.2, setAddr, Function.update_of_ne hg.1]

/-- **The code of a function in that of a program.**  Its table has the final addresses of
the functions up to itself, and none of those that follow. -/
theorem emitItems_split {pre post : List Item} {f : Func}
    (hnodup : (defined (pre ++ .func f :: post)).Nodup) (base : ℕ) (before : Bool) (t : FuncTable) :
    ∃ l b ft r, (emitItems junk (pre ++ .func f :: post) base before t).1 =
        l ++ f.emit ft junk b (base + words l) ++ r ∧
      l = (emitItems junk pre base before t).1 ∧
      l ++ f.emit ft junk b (base + words l) = (emitItems junk (pre ++ [.func f]) base before t).1 ∧
      b = endsInRet before l ∧
      ft f.name = (t f.name).map (fun info =>
        { info with addr := some (BitVec.ofNat 32 (base + words l)) }) ∧
      SameFrames t ft ∧
      (∀ g ∈ defined (pre ++ [.func f]),
        ft g = (emitItems junk (pre ++ .func f :: post) base before t).2 g) ∧
      ∀ g ∉ defined (pre ++ [.func f]), ft g = t g := by
  rw [defined_append, defined] at hnodup
  obtain ⟨-, hpost, hdisj⟩ := List.nodup_append.mp hnodup
  have hf : f.name ∉ defined post := (List.nodup_cons.mp hpost).1
  have hfpre : f.name ∉ defined pre := fun hmem => hdisj _ hmem _ List.mem_cons_self rfl
  have hmem (g : String) : g ∈ defined (pre ++ [.func f]) ↔ g ∈ defined pre ∨ g = f.name := by
    simp [defined_append, defined]
  rw [emitItems_append pre (.func f :: post), emitItems_append pre [.func f]]
  simp only [emitItems, List.append_nil]
  have htable := @emitItems_other junk t pre base before
  have hsame := @emitItems_sameFrames junk pre base before t
  generalize emitItems junk pre base before t = out at htable hsame
  obtain ⟨l, t₁⟩ := out
  simp only at htable hsame
  refine ⟨l, _, setAddr t₁ f.name (base + words l), _, (List.append_assoc ..).symm, rfl, rfl, rfl,
    ?_, hsame.trans (.setAddr _ _ _), fun g hg => ?_, fun g hg => ?_⟩
  · rw [setAddr, Function.update_self, htable hfpre]
  · refine (emitItems_other ?_).symm
    rcases (hmem g).mp hg with hg | rfl
    · exact fun hmem => hdisj _ hg _ (List.mem_cons_of_mem _ hmem) rfl
    · exact hf
  · rw [hmem, not_or] at hg
    rw [setAddr, Function.update_of_ne hg.2, htable hg.1]

/-- **Each instruction** of the functions is in the code of one of them. -/
theorem emitItems_index {items : List Item} {base : ℕ} {before : Bool} {i : ℕ}
    (hi : i < (emitItems junk items base before t).1.length) :
    ∃ pre f post, items = pre ++ .func f :: post ∧
      (emitItems junk pre base before t).1.length ≤ i ∧
      i < (emitItems junk (pre ++ [.func f]) base before t).1.length := by
  induction items generalizing base before t i with
  | nil => simp [emitItems] at hi
  | cons item items ih =>
      cases item with
      | proto p =>
          obtain ⟨pre, f, post, rfl, hle, hlt⟩ := ih hi
          exact ⟨.proto p :: pre, f, post, rfl, hle, hlt⟩
      | func f =>
          by_cases hfirst : i < (f.emit (setAddr t f.name base) junk before base).length
          · refine ⟨[], f, items, rfl, Nat.zero_le i, ?_⟩
            simpa [emitItems] using hfirst
          · let fn := f.emit (setAddr t f.name base) junk before base
            have hcons (l : List Item) : (emitItems junk (.func f :: l) base before t).1.length =
                fn.length + (emitItems junk l (base + words fn) (endsInRet before fn)
                  (setAddr t f.name base)).1.length := by
              simp only [emitItems, List.length_append, fn]
            have hle : fn.length ≤ i := Nat.not_lt.mp hfirst
            rw [hcons] at hi
            have hrest : i - fn.length < (emitItems junk items (base + words fn)
                (endsInRet before fn) (setAddr t f.name base)).1.length := by omega
            obtain ⟨pre, f', post, rfl, hle', hlt⟩ := ih hrest
            refine ⟨.func f :: pre, f', post, rfl, ?_, ?_⟩
            · rw [hcons]
              omega
            · rw [List.cons_append, hcons]
              omega

end Items

/-! ## The calls of a phrase -/

section Calls
variable (t : FuncTable) (junk : Junk)

/-- The instruction of a call. -/
def callElem (g : String) : CodeElem := ⟨.call, callAddr t junk g, some g⟩

/-- The calls in a code list are among these. -/
def CallsTo (calls : List Call) (l : List CodeElem) : Prop :=
  ∀ e ∈ l, e.instr = .call → ∃ c ∈ calls, e = callElem t junk c.callee

namespace CallsTo

variable {t junk} {calls calls' : List Call} {l r : List CodeElem}

theorem nil : CallsTo t junk calls [] := by simp [CallsTo]

theorem single {e : CodeElem} (h : e.instr ≠ .call) : CallsTo t junk calls [e] := by
  intro x hx hcall
  rw [List.mem_singleton.mp hx] at hcall
  exact absurd hcall h

theorem append (hl : CallsTo t junk calls l) (hr : CallsTo t junk calls r) :
    CallsTo t junk calls (l ++ r) := by
  intro e he hcall
  rcases List.mem_append.mp he with he | he
  · exact hl e he hcall
  · exact hr e he hcall

theorem jmp {target : ℕ} (hl : CallsTo t junk calls l) :
    CallsTo t junk calls (elem .jmp target :: l) :=
  append (l := [elem .jmp target]) (.single (by simp [elem])) hl

theorem mono (h : CallsTo t junk calls l) (hsub : ∀ c ∈ calls, c ∈ calls') :
    CallsTo t junk calls' l := by
  intro e he hcall
  obtain ⟨c, hc, heq⟩ := h e he hcall
  exact ⟨c, hsub c hc, heq⟩

/-- The code of two phrases. -/
theorem both (hl : CallsTo t junk calls l) (hr : CallsTo t junk calls' r) :
    CallsTo t junk (calls ++ calls') (l ++ r) :=
  (hl.mono fun _ hc => List.mem_append_left _ hc).append
    (hr.mono fun _ hc => List.mem_append_right _ hc)

end CallsTo

variable (name : String)

theorem storeCode_callsTo (n : ℕ) (calls : List Call) : CallsTo t junk calls (storeCode n) := by
  induction n with
  | zero => exact .nil
  | succ n ih => exact CallsTo.append (.single (by simp [elem])) ih

theorem callCode_callsTo (c : Call) : CallsTo t junk [c] (callCode t junk c.callee) := by
  refine (storeCode_callsTo t junk _ _).append ?_
  intro e he _
  rw [List.mem_singleton.mp he]
  exact ⟨c, List.mem_singleton_self c, rfl⟩

mutual

theorem Expr.emit_callsTo : ∀ e : Expr, CallsTo t junk e.calls (e.emit t junk name)
  | .unary u => u.emit_callsTo
  | .bin u op e => by
      refine (u.emit_callsTo.both e.emit_callsTo).append (.single ?_)
      cases op <;> simp [elem, NumOp.instr]

theorem Unary.emit_callsTo : ∀ u : Unary, CallsTo t junk u.calls (u.emit t junk name)
  | .call g args => args.emit_callsTo.both (callCode_callsTo t junk ⟨g, args.count, true⟩)
  | .var _ => .single (by simp [elem])
  | .lit _ => .single (by simp)
  | .paren e => e.emit_callsTo

theorem Args.emit_callsTo : ∀ args : Args, CallsTo t junk args.calls (args.emit t junk name)
  | .empty => .nil
  | .last e => e.emit_callsTo
  | .cons e args => e.emit_callsTo.both args.emit_callsTo

end

variable {t junk name}

theorem Cond.emit_callsTo (c : Cond) {instr : InstrType} (hinstr : instr ≠ .call) (target : ℕ) :
    CallsTo t junk c.calls (c.emit t junk name instr target) :=
  ((c.left.emit_callsTo t junk name).both (c.right.emit_callsTo t junk name)).append
    (.single hinstr)

theorem BoolOp.jmp_ne_call (op : BoolOp) : op.jmp ≠ .call ∧ negJmpInstr op.jmp ≠ .call := by
  cases op <;> simp [BoolOp.jmp, BoolOp.tok, boolopToJmpInstr, negJmpInstr]

theorem Simple.emit_callsTo (s : Simple) : CallsTo t junk s.calls (s.emit t junk name) := by
  cases s with
  | varDef _ _ init =>
      cases init with
      | none => exact .nil
      | some e => exact (e.emit_callsTo t junk name).append (.single (by simp [elem]))
  | varAssign _ e => exact (e.emit_callsTo t junk name).append (.single (by simp [elem]))

theorem epilogCode_callsTo (calls : List Call) : CallsTo t junk calls (epilogCode t name) := by
  rw [epilogCode]
  split
  · exact .single (by simp [elem])
  · exact .nil

theorem prologCode_callsTo (calls : List Call) : CallsTo t junk calls (prologCode t name) := by
  rw [prologCode]
  split
  · exact .single (by simp [elem])
  · exact .nil

/-- **The calls of a statement.** -/
theorem Stmt.emit_callsTo (st : Stmt) : ∀ base : ℕ,
    CallsTo t junk st.calls (st.emit t junk name base) := by
  induction st with
  | skip => exact fun _ => .nil
  | seq s rest ih₁ ih₂ => exact fun base => (ih₁ base).both (ih₂ _)
  | simple s => exact fun _ => s.emit_callsTo
  | call g args =>
      exact fun _ => (args.emit_callsTo t junk name).both (callCode_callsTo t junk ⟨g, _, false⟩)
  | print e => exact fun _ => (e.emit_callsTo t junk name).append (.single (by simp [elem]))
  | ret e =>
      intro base
      have hexpr : CallsTo t junk (exprCalls? e) (exprEmit? t junk name e) := by
        cases e with
        | none => exact .nil
        | some e => exact e.emit_callsTo t junk name
      exact (hexpr.append (epilogCode_callsTo _)).append (.single (by simp [elem]))
  | ifThen c s ih => exact fun base => (c.emit_callsTo c.op.jmp_ne_call.2 _).both (ih _)
  | ifElse c s₁ s₂ ih₁ ih₂ =>
      intro base
      simp only [Stmt.emit]
      exact ((c.emit_callsTo c.op.jmp_ne_call.2 _).both (ih₁ _)).both (.jmp (ih₂ _))
  | whileLoop c body ih =>
      intro base
      refine CallsTo.mono ((ih _).jmp.both (c.emit_callsTo c.op.jmp_ne_call.1 _)) fun x hx => ?_
      exact List.mem_append.mpr (List.mem_append.mp hx).symm
  | forLoop init c x e body ih =>
      intro base
      simp only [Stmt.emit]
      have hbody := (ih (base + words (init.emit t junk name) + 2)).both
        (@Simple.emit_callsTo t junk name (.varAssign x e))
      refine CallsTo.mono ((init.emit_callsTo.both hbody.jmp).both
        (c.emit_callsTo c.op.jmp_ne_call.1 _)) fun y hy => ?_
      simp only [Stmt.calls, Simple.calls, List.mem_append] at hy ⊢
      tauto
  | doLoop body c ih =>
      intro base
      exact (ih base).both (c.emit_callsTo c.op.jmp_ne_call.1 _)

theorem Func.emit_callsTo (f : Func) (before : Bool) (base : ℕ) :
    CallsTo t junk f.body.calls (f.emit t junk before base) := by
  simp only [Func.emit]
  have hbody := (@prologCode_callsTo t junk f.name f.body.calls).append
    (@Stmt.emit_callsTo t junk f.name f.body (base + words (prologCode t f.name)))
  split
  · exact hbody
  · exact (hbody.append (epilogCode_callsTo _)).append (.single (by simp [elem]))

end Calls

/-! ## Programs -/

section Programs
variable {junk : Junk} {t : FuncTable} {items : List Item} {code : List CodeElem} {s : GState}

/-- The word at which the code of a function starts, by the final table. -/
def startOf (junk : Junk) (s : GState) (g : String) : ℕ := (callAddr s.funcTable junk g).toNat

/-- **The code of a function of a program**, and the addresses it has been generated with. -/
theorem generateCode_function (hreg : Registers (fun _ => none) items t)
    (h : generateCode junk t (headNode items) = .ok (some code) s) {pre post : List Item} {f : Func}
    (hitems : items = pre ++ .func f :: post) :
    ∃ main l b ft r, t "main" = some main ∧
      l = entryCode main.argCount (callAddr s.funcTable junk "main") ++
        (emitItems junk pre (words (entryCode main.argCount 0)) false t).1 ∧
      l ++ f.emit ft junk b (words l) =
        entryCode main.argCount (callAddr s.funcTable junk "main") ++
        (emitItems junk (pre ++ [.func f]) (words (entryCode main.argCount 0)) false t).1 ∧
      code = l ++ f.emit ft junk b (words l) ++ r ∧ b = endsInRet false l ∧
      startOf junk s f.name = words l ∧ SameFrames t ft ∧
      ∀ g, callAddr ft junk g = if g ∈ defined (pre ++ [.func f])
        then BitVec.ofNat 32 (startOf junk s g) else junk g := by
  subst hitems
  obtain ⟨main, hmain, htable, hcode, hlt⟩ := generateCode_eq_some h
  let entry := entryCode main.argCount (callAddr s.funcTable junk "main")
  have hwords : words (entryCode main.argCount 0) = words entry := (words_entryCode _ _).symm
  obtain ⟨l, b, ft, r, hout, hl, hnext, hb, hself, hsame, hup, hdown⟩ :=
    @emitItems_split junk pre post f hreg.nodup (words entry) false t
  rw [programCode, hwords] at htable hcode
  rw [hout, show entryCode _ _ = entry from rfl, ← List.append_assoc, ← List.append_assoc,
    ← words_append] at hcode
  have hentry : endsInRet false entry = false := by
    rw [endsInRet, show entry = _ ++ [_, elem .finish 0] from rfl, List.getLast?_append]
    rfl
  refine ⟨main, entry ++ l, b, ft, r, hmain, ?_, ?_, hcode, ?_, ?_, hsame, fun g => ?_⟩
  · rw [hl, hwords]
  · rw [hwords, ← hnext, words_append, List.append_assoc]
  · rw [hb, ← endsInRet_append, hentry]
  · -- the field of the function has been set once
    have hmem : f.name ∈ defined (pre ++ [.func f]) := by simp [defined_append, defined]
    have hentry := hup f.name hmem
    obtain ⟨info, hinfo⟩ : ∃ info, t f.name = some info := by
      obtain ⟨t₁, t₂, hat⟩ := hreg.at
      obtain ⟨_, info, -, ht₂, -⟩ := Func.Registers.entry hat.item
      refine ⟨info, ?_⟩
      rw [hat.entry, ht₂, Function.update_self]
    rw [hself, hinfo, ← htable] at hentry
    have hsize : words code = words (entry ++ l) + (words (f.emit ft junk b
        (words (entry ++ l))) + words r) := by
      rw [hcode, words_append, words_append (entry ++ l), Nat.add_assoc]
    rw [startOf, callAddr, ← hentry]
    simp only [Option.map_some, Option.bind_some, Option.getD_some, BitVec.toNat_ofNat,
      ← words_append]
    exact Nat.mod_eq_of_lt (by omega)
  · by_cases hg : g ∈ defined (pre ++ [.func f])
    · rw [if_pos hg, startOf, BitVec.ofNat_toNat, BitVec.setWidth_eq, callAddr, hup g hg, htable]
      rfl
    · rw [if_neg hg, callAddr, hdown g hg]
      cases hinfo : t g with
      | none => rfl
      | some info => simp [hreg.addr (fun _ _ h => by simp at h) g info hinfo]

/-- The operand of a call: the start of the callee where it is defined, and else what
`malloc` has left. -/
def callOperand (junk : Junk) (start : String → ℕ) (items : List Item) (g : String) : Word :=
  if g ∈ defined items then BitVec.ofNat 32 (start g) else junk g

theorem argloadCode_instr (i n : ℕ) : ∀ e ∈ argloadCode i n, e.instr = .argload := by
  induction n generalizing i with
  | zero => simp [argloadCode]
  | succ n ih =>
      intro e he
      rcases List.mem_cons.mp he with rfl | he
      · rfl
      · exact ih _ e he

/-- The only call of the entry. -/
theorem entryCode_call {n : ℕ} {addr : Word} {e : CodeElem} (he : e ∈ entryCode n addr)
    (hcall : e.instr = .call) : e.arg = addr ∧ e.callee = some "main" := by
  rw [entryCode, entryArgs, List.mem_append, List.mem_append] at he
  rcases he with (he | he) | he
  · split at he
    · rw [List.mem_singleton.mp he] at hcall
      simp [elem] at hcall
    · simp at he
  · rw [argloadCode_instr 0 n e he] at hcall
    cases hcall
  · rcases List.mem_cons.mp he with rfl | he
    · exact ⟨rfl, rfl⟩
    · rw [List.mem_singleton.mp he] at hcall
      simp [elem] at hcall

/-- **Each call of the list** is that of the entry, or has been generated for a function. -/
theorem generateCode_calls (hreg : Registers (fun _ => none) items t)
    (h : generateCode junk t (headNode items) = .ok (some code) s) {i : ℕ} {e : CodeElem}
    (he : code[i]? = some e) (hcall : e.instr = .call) :
    (∃ n l, code = entryCode n e.arg ++ l ∧ i < (entryCode n e.arg).length ∧
      e.callee = some "main" ∧ e.arg = callAddr s.funcTable junk "main") ∨
    ∃ pre f post c l b ft r, items = pre ++ .func f :: post ∧ c ∈ f.body.calls ∧
      code = l ++ f.emit ft junk b (words l) ++ r ∧ l.length ≤ i ∧
      i < l.length + (f.emit ft junk b (words l)).length ∧ e = callElem ft junk c.callee ∧
      ∀ g, callAddr ft junk g = if g ∈ defined (pre ++ [.func f])
        then BitVec.ofNat 32 (startOf junk s g) else junk g := by
  obtain ⟨main, hmain, htable, hcode, -⟩ := generateCode_eq_some h
  let entry := entryCode main.argCount (callAddr s.funcTable junk "main")
  change code = entry ++ _ at hcode
  by_cases hi : i < entry.length
  · left
    rw [hcode, List.getElem?_append_left hi] at he
    obtain ⟨harg, hcallee⟩ := entryCode_call (List.mem_of_getElem? he) hcall
    have hentry : entryCode main.argCount e.arg = entry := by rw [harg]
    exact ⟨main.argCount, _, hentry ▸ hcode, hentry ▸ hi, hcallee, harg⟩
  · right
    have hi' : i - entry.length < (programCode junk items main.argCount t).1.length := by
      have hlt := (List.getElem?_eq_some_iff.mp he).1
      rw [hcode, List.length_append] at hlt
      omega
    obtain ⟨pre, f, post, hitems, hle, hlt⟩ := emitItems_index hi'
    obtain ⟨main', l, b, ft, r, hmain', hl, hnext, hsplit, -, -, -, haddr⟩ :=
      generateCode_function hreg h hitems
    obtain rfl := Option.some.inj (hmain.symm.trans hmain')
    have hlength := congrArg List.length hl
    have hlength' := congrArg List.length hnext
    rw [List.length_append, show entryCode _ _ = entry from rfl] at hlength
    rw [List.length_append, List.length_append, show entryCode _ _ = entry from rfl] at hlength'
    have hmem : e ∈ f.emit ft junk b (words l) := by
      rw [hsplit, List.append_assoc, List.getElem?_append_right (by omega),
        List.getElem?_append_left (by omega)] at he
      exact List.mem_of_getElem? he
    obtain ⟨c, hc, rfl⟩ := f.emit_callsTo b (words l) e hmem hcall
    exact ⟨pre, f, post, c, l, b, ft, r, hitems, hc, hsplit, by omega, by omega, rfl, haddr⟩

/-- **Calls reach the functions before them.**  In the list of a program every definition
has its code in one place, its start.  A call that was generated for a function `f` carries the
start of its callee if that is `f` or is defined before `f`, and else an arbitrary word; the
call of the entry carries the start of `main` if `main` is defined. -/
theorem calls_addressed {fuel : ℕ} {first : List Token}
    (h : compile junk fuel first = some code) :
    ∃ items s start, parseTokenlist fuel first = .ok (headNode items) s ∧
      Registers (fun _ => none) items s.funcTable ∧
      (∀ f, .func f ∈ items → ∃ l b ft r, code = l ++ f.emit ft junk b (words l) ++ r ∧
        start f.name = words l) ∧
      ∀ i e, code[i]? = some e → e.instr = .call →
        (∃ n l, code = entryCode n e.arg ++ l ∧ i < (entryCode n e.arg).length ∧
          e.callee = some "main" ∧ e.arg = callOperand junk start items "main") ∨
        ∃ pre f post g l b ft r, items = pre ++ .func f :: post ∧
          code = l ++ f.emit ft junk b (words l) ++ r ∧ l.length ≤ i ∧
          i < l.length + (f.emit ft junk b (words l)).length ∧ (∃ c ∈ f.body.calls, c.callee = g) ∧
          e.callee = some g ∧ e.arg = callOperand junk start (pre ++ [.func f]) g := by
  obtain ⟨items, s, s', hparse, hreg, -, hgen⟩ := compile_eq_some h
  obtain ⟨main, hmain, htable, -, -⟩ := generateCode_eq_some hgen
  refine ⟨items, s, startOf junk s', hparse, hreg, fun f hf => ?_, fun i e he hcall => ?_⟩
  · obtain ⟨pre, post, hitems⟩ := List.append_of_mem hf
    obtain ⟨_, l, b, ft, r, -, -, -, hsplit, -, hstart, -⟩ := generateCode_function hreg hgen hitems
    exact ⟨l, b, ft, r, hsplit, hstart⟩
  · rcases generateCode_calls hreg hgen he hcall with ⟨n, l, hcode, hi, hcallee, harg⟩ |
      ⟨pre, f, post, c, l, b, ft, r, hitems, hc, hcode, hle, hlt, rfl, haddr⟩
    · refine .inl ⟨n, l, hcode, hi, hcallee, ?_⟩
      rw [harg, callOperand]
      by_cases hdef : "main" ∈ defined items
      · rw [if_pos hdef, startOf, BitVec.ofNat_toNat, BitVec.setWidth_eq]
      · rw [if_neg hdef, callAddr, htable, programCode, emitItems_other hdef, hmain]
        simp [hreg.addr (fun _ _ h => by simp at h) "main" main hmain]
    · exact .inr ⟨pre, f, post, c.callee, l, b, ft, r, hitems, hcode, hle, hlt, ⟨c, hc, rfl⟩, rfl,
        haddr c.callee⟩

end Programs

/-- `int g(void); void main(void) { print g(); } int g(void) { return 1; }` -/
def forwardCall : List Token :=
  [⟨.tokInt, "int"⟩, ⟨.tokIdentifier, "g"⟩, ⟨.tokOpenpa, "("⟩, ⟨.tokVoid, "void"⟩,
   ⟨.tokClosepa, ")"⟩, ⟨.tokSemicl, ";"⟩,
   ⟨.tokVoid, "void"⟩, ⟨.tokIdentifier, "main"⟩, ⟨.tokOpenpa, "("⟩, ⟨.tokVoid, "void"⟩,
   ⟨.tokClosepa, ")"⟩, ⟨.tokOpenbr, "\x7b"⟩, ⟨.tokPrint, "print"⟩, ⟨.tokIdentifier, "g"⟩,
   ⟨.tokOpenpa, "("⟩, ⟨.tokClosepa, ")"⟩, ⟨.tokSemicl, ";"⟩, ⟨.tokClosebr, "\x7d"⟩,
   ⟨.tokInt, "int"⟩, ⟨.tokIdentifier, "g"⟩, ⟨.tokOpenpa, "("⟩, ⟨.tokVoid, "void"⟩,
   ⟨.tokClosepa, ")"⟩, ⟨.tokOpenbr, "\x7b"⟩, ⟨.tokReturn, "return"⟩, ⟨.tokIntliteral, "1"⟩,
   ⟨.tokSemicl, ";"⟩, ⟨.tokClosebr, "\x7d"⟩, ⟨.tokEof, ""⟩]

/-- The call of `g` in `main` leads to the word 77. -/
def forwardCallCode : List CodeElem :=
  [⟨.call, 3, some "main"⟩, elem .finish 0, ⟨.call, 77, some "g"⟩, elem .print 0, elem .ret 0,
   elem .push 1, elem .ret 0]

theorem forwardCall_compiled : compile (fun _ => 77) 60 forwardCall = some forwardCallCode := by
  decide +kernel

theorem calls_addressed_small : ∃ items start pre f post,
    items = pre ++ .func f :: post ∧ (∃ c ∈ f.body.calls, c.callee = "g") ∧
      77 = callOperand (fun _ => 77) start (pre ++ [.func f]) "g" := by
  obtain ⟨items, _, start, -, -, -, hcalls⟩ := calls_addressed forwardCall_compiled
  rcases hcalls 2 ⟨.call, 77, some "g"⟩ rfl rfl with ⟨_, _, -, -, hcallee, -⟩ |
    ⟨pre, f, post, g, _, _, _, _, hitems, -, -, -, hc, hcallee, harg⟩
  · simp at hcallee
  · obtain rfl := Option.some.inj hcallee
    exact ⟨items, start, pre, f, post, hitems, hc, harg⟩

end Bispe
