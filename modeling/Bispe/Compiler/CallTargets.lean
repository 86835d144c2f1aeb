import Bispe.Compiler.Alike
import Bispe.Compiler.Control
import Bispe.Compiler.Prototypes

/-!
# Calls reach their callees

The operand of a call is read from the function table while the code is generated, so it is
the start of the callee exactly if the callee has been reached by then.  Whatever `malloc`
leaves in the other entries, the calls of an accepted program all lead to their callees if
and only if no call goes forward and no function that is called has empty code.

## Main definitions

* `HasCalls` — no call of a phrase is missing in its code.
* `EmittedUpTo` — the code of the first functions of a program.
* `CallsReach` — the operand of each call is the word of the first instruction of the callee.
* `CallsBack` — no call goes forward.
* `calls_reach_iff` — the calls reach their callees exactly if they go back.
-/

namespace Bispe

open Effect

/-! ## The calls of a phrase -/

section Calls
variable (t : FuncTable) (junk : Junk)

/-- Each of the calls is in the code list. -/
def HasCalls (calls : List Call) (l : List CodeElem) : Prop :=
  ∀ c ∈ calls, callElem t junk c.callee ∈ l

namespace HasCalls

variable {t junk} {calls calls' : List Call} {l r : List CodeElem}

theorem nil (l : List CodeElem) : HasCalls t junk [] l := by simp [HasCalls]

theorem left (h : HasCalls t junk calls l) (r : List CodeElem) : HasCalls t junk calls (l ++ r) :=
  fun c hc => List.mem_append_left r (h c hc)

theorem right (h : HasCalls t junk calls r) (l : List CodeElem) :
    HasCalls t junk calls (l ++ r) := fun c hc => List.mem_append_right l (h c hc)

theorem cons (h : HasCalls t junk calls l) (e : CodeElem) : HasCalls t junk calls (e :: l) :=
  fun c hc => List.mem_cons_of_mem e (h c hc)

/-- The code of two phrases. -/
theorem both (hl : HasCalls t junk calls l) (hr : HasCalls t junk calls' r) :
    HasCalls t junk (calls ++ calls') (l ++ r) := by
  intro c hc
  rcases List.mem_append.mp hc with hc | hc
  · exact hl.left r c hc
  · exact hr.right l c hc

/-- The code of two phrases, the second of which is emitted first. -/
theorem swap (hl : HasCalls t junk calls l) (hr : HasCalls t junk calls' r) :
    HasCalls t junk (calls' ++ calls) (l ++ r) := fun c hc =>
  hl.both hr c (List.mem_append.mpr (List.mem_append.mp hc).symm)

end HasCalls

variable (name : String)

theorem callCode_hasCalls (c : Call) : HasCalls t junk [c] (callCode t junk c.callee) := by
  intro x hx
  rw [List.mem_singleton.mp hx]
  exact List.mem_append_right _ (List.mem_singleton_self _)

mutual

theorem Expr.emit_hasCalls : ∀ e : Expr, HasCalls t junk e.calls (e.emit t junk name)
  | .unary u => u.emit_hasCalls
  | .bin u _ e => (u.emit_hasCalls.both e.emit_hasCalls).left _

theorem Unary.emit_hasCalls : ∀ u : Unary, HasCalls t junk u.calls (u.emit t junk name)
  | .call g args => args.emit_hasCalls.both (callCode_hasCalls t junk ⟨g, args.count, true⟩)
  | .var _ => .nil _
  | .lit _ => .nil _
  | .paren e => e.emit_hasCalls

theorem Args.emit_hasCalls : ∀ args : Args, HasCalls t junk args.calls (args.emit t junk name)
  | .empty => .nil _
  | .last e => e.emit_hasCalls
  | .cons e args => e.emit_hasCalls.both args.emit_hasCalls

end

variable {t junk name}

theorem Cond.emit_hasCalls (c : Cond) (instr : InstrType) (target : ℕ) :
    HasCalls t junk c.calls (c.emit t junk name instr target) :=
  ((c.left.emit_hasCalls t junk name).both (c.right.emit_hasCalls t junk name)).left _

theorem exprEmit?_hasCalls (e : Option Expr) :
    HasCalls t junk (exprCalls? e) (exprEmit? t junk name e) := by
  cases e with
  | none => exact .nil _
  | some e => exact e.emit_hasCalls t junk name

theorem Simple.emit_hasCalls (s : Simple) : HasCalls t junk s.calls (s.emit t junk name) := by
  cases s with
  | varDef _ _ init =>
      cases init with
      | none => exact .nil _
      | some e => exact (e.emit_hasCalls t junk name).left _
  | varAssign _ e => exact (e.emit_hasCalls t junk name).left _

/-- **No call of a statement is missing.** -/
theorem Stmt.emit_hasCalls (st : Stmt) : ∀ base : ℕ,
    HasCalls t junk st.calls (st.emit t junk name base) := by
  induction st with
  | skip => exact fun _ => .nil _
  | seq s rest ih₁ ih₂ => exact fun base => (ih₁ base).both (ih₂ _)
  | simple s => exact fun _ => s.emit_hasCalls
  | call g args =>
      exact fun _ => (args.emit_hasCalls t junk name).both (callCode_hasCalls t junk ⟨g, _, false⟩)
  | print e => exact fun _ => (e.emit_hasCalls t junk name).left _
  | ret e => exact fun _ => ((exprEmit?_hasCalls e).left _).left _
  | ifThen c s ih => exact fun base => (c.emit_hasCalls _ _).both (ih _)
  | ifElse c s₁ s₂ ih₁ ih₂ =>
      exact fun base => ((c.emit_hasCalls _ _).both (ih₁ _)).both ((ih₂ _).cons _)
  | whileLoop c body ih => exact fun base => ((ih _).cons _).swap (c.emit_hasCalls _ _)
  | forLoop init c x e body ih =>
      intro base y hy
      simp only [Stmt.calls, List.mem_append] at hy
      rcases hy with ((hy | hy) | hy) | hy
      · exact (init.emit_hasCalls.left _).left _ y hy
      · exact (c.emit_hasCalls _ _).right _ y hy
      · exact ((((Simple.varAssign x e).emit_hasCalls.right _).cons _).right _).left _ y hy
      · exact ((((ih _).left _).cons _).right _).left _ y hy
  | doLoop body c ih => exact fun base => (ih base).both (c.emit_hasCalls _ _)

theorem Func.emit_hasCalls (f : Func) (before : Bool) (base : ℕ) :
    HasCalls t junk f.body.calls (f.emit t junk before base) := by
  simp only [Func.emit]
  have hbody := (@Stmt.emit_hasCalls t junk f.name f.body
    (base + words (prologCode t f.name))).right (prologCode t f.name)
  split
  · exact hbody
  · exact (hbody.left _).left _

end Calls

/-! ## Where calls lead -/

/-- The list `l` is the code of the entry and of the functions of `items`, in `code`. -/
def EmittedUpTo (junk : Junk) (t : FuncTable) (code : List CodeElem) (items : List Item)
    (l : List CodeElem) : Prop :=
  l <+: code ∧ ∃ main addr, t "main" = some main ∧ l = entryCode main.argCount addr ++
    (emitItems junk items (words (entryCode main.argCount 0)) false t).1

/-- **The calls reach their callees**: every function that is called is defined, and the operand
of each call of it is the word at which its first instruction has been placed. -/
structure CallsReach (junk : Junk) (t : FuncTable) (items : List Item) (code : List CodeElem) :
    Prop where
  known : ∀ f, .func f ∈ items → ∀ c ∈ f.body.calls, c.callee ∈ defined items
  addressed : ∀ e ∈ code, e.instr = .call → ∃ pre f post l fn, items = pre ++ .func f :: post ∧
    e.callee = some f.name ∧ EmittedUpTo junk t code pre l ∧
    EmittedUpTo junk t code (pre ++ [.func f]) (l ++ fn) ∧ fn ≠ [] ∧ e.arg.toNat = words l

/-- The function `g` is defined, with an instruction. -/
def DefinedWithCode (items : List Item) (g : String) : Prop :=
  ∃ pre f post, items = pre ++ .func f :: post ∧ f.name = g ∧ f.HasCode pre

/-- `main` is defined, functions call only themselves and functions before them, and the
functions that are called have code. -/
structure CallsBack (items : List Item) : Prop where
  main : DefinedWithCode items "main"
  back : ∀ pre f post, items = pre ++ .func f :: post → ∀ c ∈ f.body.calls,
    DefinedWithCode (pre ++ [.func f]) c.callee

theorem DefinedWithCode.append {items : List Item} {g : String} (h : DefinedWithCode items g)
    (rest : List Item) : DefinedWithCode (items ++ rest) g := by
  obtain ⟨pre, f, post, rfl, hname, hcode⟩ := h
  exact ⟨pre, f, post ++ rest, by simp, hname, hcode⟩

theorem DefinedWithCode.mem {items : List Item} {g : String} (h : DefinedWithCode items g) :
    g ∈ defined items := by
  obtain ⟨pre, f, post, rfl, rfl, -⟩ := h
  simp [defined_append, defined]

section Reach
variable {junk : Junk} {t : FuncTable} {items : List Item} {code : List CodeElem} {s : GState}

theorem EmittedUpTo.unique {l l' : List CodeElem} (h : EmittedUpTo junk t code items l)
    (h' : EmittedUpTo junk t code items l') : l = l' := by
  obtain ⟨hl, main, addr, hmain, rfl⟩ := h
  obtain ⟨hl', main', addr', hmain', rfl⟩ := h'
  obtain rfl := Option.some.inj (hmain.symm.trans hmain')
  refine (List.prefix_of_prefix_length_le hl hl' ?_).eq_of_length ?_ <;> simp [entryCode]

theorem EmittedUpTo.words_pos {l : List CodeElem} (h : EmittedUpTo junk t code items l) :
    0 < words l := by
  obtain ⟨-, main, addr, -, rfl⟩ := h
  rw [words_append, entryCode, words_append, words_cons]
  have hpos := CodeElem.width_pos ⟨.call, addr, some "main"⟩
  omega

/-- **A function in the list of a program.** -/
theorem generateCode_emitted (hreg : Registers (fun _ => none) items t)
    (h : generateCode junk t (headNode items) = .ok (some code) s) {pre post : List Item} {f : Func}
    (hitems : items = pre ++ .func f :: post) :
    ∃ l fn b ft, EmittedUpTo junk t code pre l ∧
      EmittedUpTo junk t code (pre ++ [.func f]) (l ++ fn) ∧
      fn = f.emit ft junk b (words l) ∧ (fn ≠ [] ↔ f.HasCode pre) ∧
      startOf junk s f.name = words l ∧
      ∀ g, callAddr ft junk g = if g ∈ defined (pre ++ [.func f])
        then BitVec.ofNat 32 (startOf junk s g) else junk g := by
  obtain ⟨main, l, b, ft, r, hmain, hl, hnext, hcode, hb, hstart, hsame, haddr⟩ :=
    generateCode_function hreg h hitems
  have hframe : frameSize ft f.name = f.frame := by
    rw [hsame.frameSize, hreg.frameSize_eq hitems]
  have hbefore : b = !(defined pre).isEmpty := by rw [hb, hl, endsInRet_entry]
  refine ⟨l, _, b, ft, ⟨⟨f.emit ft junk b (words l) ++ r, ?_⟩, main, _, hmain, hl⟩,
    ⟨⟨r, hcode.symm⟩, main, _, hmain, hnext⟩, rfl, f.emit_ne_nil_iff _ hframe hbefore, hstart,
    haddr⟩
  rw [hcode, List.append_assoc]

/-- Where a function with code starts. -/
theorem reaches_of_defined (hreg : Registers (fun _ => none) items t)
    (h : generateCode junk t (headNode items) = .ok (some code) s) {g : String}
    (hg : DefinedWithCode items g) :
    ∃ pre f post l fn, items = pre ++ .func f :: post ∧ some g = some f.name ∧
      EmittedUpTo junk t code pre l ∧ EmittedUpTo junk t code (pre ++ [.func f]) (l ++ fn) ∧
      fn ≠ [] ∧ startOf junk s g = words l := by
  obtain ⟨pre, f, post, hitems, rfl, hcode⟩ := hg
  obtain ⟨l, fn, b, ft, hl, hnext, -, hne, hstart, -⟩ := generateCode_emitted hreg h hitems
  exact ⟨pre, f, post, l, fn, hitems, rfl, hl, hnext, hne.mpr hcode, hstart⟩

/-- Programs whose calls go back. -/
theorem CallsBack.reach (hback : CallsBack items) (hreg : Registers (fun _ => none) items t)
    (h : generateCode junk t (headNode items) = .ok (some code) s) :
    CallsReach junk t items code := by
  refine ⟨fun f hf c hc => ?_, fun e he hcall => ?_⟩
  · obtain ⟨pre, post, hitems⟩ := List.append_of_mem hf
    rw [hitems, ← List.singleton_append, ← List.append_assoc]
    exact ((hback.back pre f post hitems c hc).append post).mem
  obtain ⟨i, hi⟩ := List.mem_iff_getElem?.mp he
  have hreach (g : String) (hg : DefinedWithCode items g) (hcallee : e.callee = some g)
      (harg : e.arg.toNat = startOf junk s g) : ∃ pre f post l fn, items = pre ++ .func f :: post ∧
        e.callee = some f.name ∧ EmittedUpTo junk t code pre l ∧
        EmittedUpTo junk t code (pre ++ [.func f]) (l ++ fn) ∧ fn ≠ [] ∧
        e.arg.toNat = words l := by
    rw [hcallee, harg]
    exact reaches_of_defined hreg h hg
  rcases generateCode_calls hreg h hi hcall with ⟨n, l, -, -, hcallee, harg⟩ |
    ⟨pre, f, post, c, l, b, ft, r, hitems, hc, -, -, -, rfl, haddr⟩
  · exact hreach "main" hback.main hcallee (by rw [harg]; rfl)
  · have hdef := hback.back pre f post hitems c hc
    have harg : (callElem ft junk c.callee).arg = BitVec.ofNat 32 (startOf junk s c.callee) := by
      rw [callElem, haddr, if_pos hdef.mem]
    have hitems' : items = pre ++ [.func f] ++ post := by simp [hitems]
    refine hreach c.callee (hitems' ▸ hdef.append post) rfl ?_
    rw [harg, startOf, BitVec.ofNat_toNat, BitVec.setWidth_eq]

/-- A function that is reached has code. -/
theorem hasCode_of_emitted (hreg : Registers (fun _ => none) items t)
    (h : generateCode junk t (headNode items) = .ok (some code) s) {pre post : List Item} {f : Func}
    (hitems : items = pre ++ .func f :: post) {l fn : List CodeElem}
    (hl : EmittedUpTo junk t code pre l)
    (hnext : EmittedUpTo junk t code (pre ++ [.func f]) (l ++ fn)) (hne : fn ≠ []) :
    f.HasCode pre := by
  obtain ⟨l', fn', b, ft, hl', hnext', -, hcode, -⟩ := generateCode_emitted hreg h hitems
  obtain rfl := hl.unique hl'
  obtain rfl := List.append_cancel_left (hnext.unique hnext')
  exact hcode.mp hne

/-- A function whose name is defined in a first part of the items is in that part. -/
theorem defined_split {first rest pre post : List Item} {f : Func}
    (hnodup : (defined (first ++ rest)).Nodup) (hitems : first ++ rest = pre ++ .func f :: post)
    (hname : f.name ∈ defined first) : ∃ m, first = pre ++ .func f :: m := by
  rw [List.append_cons] at hitems
  rcases List.append_eq_append_iff.mp hitems with ⟨m, hpre, hrest⟩ | ⟨m, hfirst, -⟩
  · rcases List.eq_nil_or_concat m with rfl | ⟨m, x, rfl⟩
    · exact ⟨[], by simpa using hpre.symm⟩
    · rw [List.concat_eq_append, ← List.append_assoc] at hpre
      obtain ⟨-, hx⟩ := List.append_inj' hpre rfl
      obtain rfl := List.singleton_inj.mp hx
      rw [defined_append] at hnodup
      refine absurd rfl ((List.nodup_append.mp hnodup).2.2 _ hname f.name ?_)
      rw [hrest]
      simp [defined_append, defined]
  · exact ⟨m, by simpa using hfirst⟩

/-- Programs whose calls reach their callees where `malloc` leaves zeros. -/
theorem CallsReach.back (hreach : CallsReach (fun _ => 0) t items code)
    (hreg : Registers (fun _ => none) items t)
    (h : generateCode (fun _ => 0) t (headNode items) = .ok (some code) s) : CallsBack items := by
  constructor
  · obtain ⟨main, -, -, hcode, -⟩ := generateCode_eq_some h
    have hmem : (⟨.call, callAddr s.funcTable (fun _ => 0) "main", some "main"⟩ : CodeElem) ∈
        code := by
      rw [hcode, entryCode]
      simp
    obtain ⟨pre, f, post, l, fn, hitems, hcallee, hl, hnext, hne, -⟩ :=
      hreach.addressed _ hmem rfl
    exact ⟨pre, f, post, hitems, (Option.some.inj hcallee).symm,
      hasCode_of_emitted hreg h hitems hl hnext hne⟩
  · intro pre f post hitems c hc
    obtain ⟨l, fn, b, ft, hl, hnext, hfn, -, -, haddr⟩ := generateCode_emitted hreg h hitems
    obtain ⟨⟨r, hcode⟩, -⟩ := hnext
    have hmem : callElem ft (fun _ => 0) c.callee ∈ code := by
      rw [← hcode, hfn]
      exact List.mem_append_left _ (List.mem_append_right _ (f.emit_hasCalls _ _ c hc))
    obtain ⟨pre', f', post', l', fn', hitems', hcallee, hl', hnext', hne, harg⟩ :=
      hreach.addressed _ hmem rfl
    have hname : c.callee = f'.name := Option.some.inj hcallee
    have hhas := hasCode_of_emitted hreg h hitems' hl' hnext' hne
    by_cases hdef : c.callee ∈ defined (pre ++ [.func f])
    · have hsplit : items = pre ++ [.func f] ++ post := by simp [hitems]
      rw [hname] at hdef ⊢
      obtain ⟨m, hm⟩ := defined_split (hsplit ▸ hreg.nodup) (hsplit.symm.trans hitems') hdef
      exact ⟨pre', f', m, hm, rfl, hhas⟩
    · have hpos := hl'.words_pos
      rw [callElem, haddr, if_neg hdef] at harg
      exact absurd harg (by simp; omega)

end Reach

/-- **When the calls of a program reach their callees**, whatever `malloc` leaves. -/
theorem calls_reach_iff {junk : Junk} {fuel : ℕ} {first : List Token} {code : List CodeElem}
    (h : compile junk fuel first = some code) :
    ∃ items w eof rest s, first = w ++ eof :: rest ∧ eof.type = .tokEof ∧ Written items w ∧
      parseTokenlist fuel first = .ok (headNode items) s ∧
      ((∀ junk code, compile junk fuel first = some code →
        CallsReach junk s.funcTable items code) ↔ CallsBack items) := by
  obtain ⟨items, w, eof, rest, s, s', hfirst, heof, hwritten, -, hparse, hreg, hgen⟩ :=
    compile_written h
  have hgenerates {junk : Junk} {code : List CodeElem} (h : compile junk fuel first = some code) :
      ∃ s', generateCode junk s.funcTable (headNode items) = .ok (some code) s' := by
    obtain ⟨items', s₁, s', hparse', -, -, hgen⟩ := compile_eq_some h
    obtain ⟨hnode, rfl⟩ := EStateM.Result.ok.inj (hparse.symm.trans hparse')
    exact ⟨s', hnode ▸ hgen⟩
  refine ⟨items, w, eof, rest, s, hfirst, heof, hwritten, hparse, fun hreach => ?_,
    fun hback junk code h => ?_⟩
  · obtain ⟨code', h'⟩ := compile_alike (fun _ => 0) h
    obtain ⟨s'', hgen'⟩ := hgenerates h'
    exact (hreach _ _ h').back hreg hgen'
  · obtain ⟨s'', hgen'⟩ := hgenerates h
    exact hback.reach hreg hgen'

/-- The items of `swappedNames`, whose only call goes back. -/
theorem swappedNames_callsBack :
    CallsBack [.proto swappedProto, .func swappedF, .func swappedMain] where
  main := ⟨[.proto swappedProto, .func swappedF], swappedMain, [], rfl, rfl, .inl (by decide)⟩
  back := by
    intro pre f post hitems c hc
    rcases pre with _ | ⟨a, _ | ⟨b, _ | ⟨d, pre⟩⟩⟩
    · simp at hitems
    · obtain ⟨rfl, rfl, rfl⟩ : .proto swappedProto = a ∧ swappedF = f ∧
          [.func swappedMain] = post := by simpa using hitems
      simp [swappedF, Stmt.calls, exprCalls?, Expr.calls, Unary.calls] at hc
    · obtain ⟨rfl, rfl, rfl, rfl⟩ : .proto swappedProto = a ∧ .func swappedF = b ∧
          swappedMain = f ∧ [] = post := by simpa using hitems
      obtain rfl : c = ⟨"f", 2, true⟩ := by
        simpa [swappedMain, Stmt.calls, Expr.calls, Unary.calls, Args.calls, Args.count] using hc
      exact ⟨[.proto swappedProto], swappedF, [.func swappedMain], rfl, rfl, .inl (by decide)⟩
    · simp at hitems

/-- Whatever `malloc` leaves, the call of `f` leads to its first instruction. -/
theorem calls_reach_iff_small : ∃ s,
    parseTokenlist 60 swappedNames =
      .ok (headNode [.proto swappedProto, .func swappedF, .func swappedMain]) s ∧
    ∀ junk code, compile junk 60 swappedNames = some code →
      CallsReach junk s.funcTable [.proto swappedProto, .func swappedF, .func swappedMain]
        code := by
  obtain ⟨code, hcompile⟩ := Option.isSome_iff_exists.mp
    (by decide +kernel : (compile (fun _ => 0) 60 swappedNames).isSome = true)
  obtain ⟨items, w, eof, rest, s, hfirst, heof, hwritten, hparse, hiff⟩ := calls_reach_iff hcompile
  have hsplit : swappedNames.dropLast ++ [⟨.tokEof, ""⟩] = w ++ eof :: rest := hfirst
  obtain rfl := (swappedNames_written.unique_of_eof rfl hwritten heof hsplit).1
  exact ⟨s, hparse, hiff.mpr swappedNames_callsBack⟩

/-- Where `malloc` leaves 77, the call of `g` in `main` leads to the word 77, which is behind the
code; and a program that calls a function without a definition is accepted. -/
theorem forward_call_astray :
    compile (fun _ => 77) 60 forwardCall = some forwardCallCode ∧
    (∀ t items, ¬ CallsReach (fun _ => 77) t items forwardCallCode) ∧
    compile (fun _ => 77) 60 (forwardCall.take 18 ++ [⟨.tokEof, ""⟩]) =
      some (forwardCallCode.take 5) := by
  refine ⟨forwardCall_compiled, fun t items h => ?_, by decide +kernel⟩
  obtain ⟨pre, f, post, l, fn, -, -, ⟨⟨r, hcode⟩, -⟩, -, -, harg⟩ :=
    h.addressed ⟨.call, 77, some "g"⟩ (by simp [forwardCallCode]) rfl
  have hwords := congrArg words hcode
  have hsize : words forwardCallCode = 10 := rfl
  have harg : 77 = words l := harg
  rw [words_append, hsize] at hwords
  omega

end Bispe
