import Bispe.Compiler.Declarations
import Bispe.Compiler.Scoping
import Bispe.Compiler.Written

/-!
# Prototypes

What `register_function` makes of a definition whose function has a prototype.  The names,
the argument count and the return type are those of the prototype; the parameter list of the
definition only says which positions are moved behind the frame.  So the two passes fit
together exactly where the definition repeats the prototype, and a parameter that neither
the prototype nor the body declares is a `NULL` pointer that is followed.

## Main definitions

* `shiftedPos` — the slots after both passes.
* `FuncInfo.Agrees` — the entry of a definition is as its own parameters say.
* `registerFunction_prototyped` — what `register_function` accepts after a prototype.
* `prototypes_agree` — the entries of the definitions of a program.
* `definition_agrees_iff` — when a definition agrees with its prototype.
-/

namespace Bispe

open Effect

/-! ## Entries -/

namespace Registers

variable {t t' : FuncTable} {items : List Item} {g : String} {info info' : FuncInfo}

/-- An entry that is still that of a prototype has not been changed. -/
theorem untouched (h : Registers t items t') (hinfo : t g = some info)
    (hlast : t' g = some info') (hproto : info'.prototyped = true) : info' = info := by
  induction h generalizing info with
  | nil t => exact Option.some.inj (hlast.symm.trans hinfo)
  | @cons t t₁ t' item items hitem hrest ih =>
      by_cases hg : g = item.name
      · subst hg
        obtain ⟨new, rfl, hdecl, hdef⟩ := hitem.update
        cases item with
        | proto p =>
            rw [(hdecl ⟨p, rfl⟩).1] at hinfo
            cases hinfo
        | func f =>
            have hkeeps := (hrest.keeps (Function.update_self ..) (hdef ⟨f, rfl⟩)).1
            obtain rfl := Option.some.inj (hkeeps.symm.trans hlast)
            rw [hdef ⟨f, rfl⟩] at hproto
            cases hproto
      · obtain ⟨new, rfl, -, -⟩ := hitem.update
        exact ih ((Function.update_of_ne hg ..).trans hinfo) hlast

/-- **The entry of a prototype** until the function is defined. -/
theorem of_prototype (h : Registers (fun _ => none) items t') {p : Proto} (hp : .proto p ∈ items)
    (hinfo : t' p.name = some info) (hproto : info.prototyped = true) :
    info.Declared p.params.names ∧ info.retType = p.ret := by
  obtain ⟨l, r, rfl⟩ := List.append_of_mem hp
  obtain ⟨t₁, hl, hr⟩ := h.split
  cases hr with
  | cons hitem hrest =>
      obtain ⟨-, func, hargs, rfl⟩ := hitem
      obtain rfl := hrest.untouched (Function.update_self ..) hinfo hproto
      obtain ⟨heq, hdecl⟩ := registerArgs_declared rfl rfl (fun _ => rfl) hargs
      refine ⟨hdecl, ?_⟩
      rw [heq]
      rfl

/-- A function that has not been defined has an entry of a prototype. -/
theorem prototyped (h : Registers t items t') (hg : g ∉ defined items)
    (hproto : ∀ info, t g = some info → info.prototyped = true) :
    ∀ info, t' g = some info → info.prototyped = true := by
  induction h with
  | nil t => exact hproto
  | @cons t t₁ t' item items hitem hrest ih =>
      obtain ⟨new, rfl, hdecl, -⟩ := hitem.update
      cases item with
      | proto p =>
          refine ih hg fun info hinfo => ?_
          by_cases hname : g = p.name
          · subst hname
            rw [show (Item.proto p).name = p.name from rfl, Function.update_self] at hinfo
            rw [← Option.some.inj hinfo]
            exact (hdecl ⟨p, rfl⟩).2
          · rw [show (Item.proto p).name = p.name from rfl, Function.update_of_ne hname] at hinfo
            exact hproto info hinfo
      | func f =>
          rw [defined, List.mem_cons, not_or] at hg
          refine ih hg.2 fun info hinfo => ?_
          rw [show (Item.func f).name = f.name from rfl, Function.update_of_ne hg.1] at hinfo
          exact hproto info hinfo

end Registers

/-! ## Slots -/

/-- The slots of the locals `defs` and of the declared parameters `names`, after each name
in the list `params` of the definition has been moved behind the frame. -/
def shiftedPos (names params defs : List String) (M : ℕ) (x : String) : Option ℕ :=
  (if x ∈ defs then some (M + defs.idxOf x)
    else if x ∈ names then some (1 + names.idxOf x) else none).map
      (· + params.count x * (defs.length + M))

/-- The entry of a definition after a prototype with the parameters `names`. -/
structure FuncInfo.Shifted (info : FuncInfo) (names params defs : List String) (M : ℕ) : Prop where
  argCount : info.argCount = names.length
  varCount : info.varCount = defs.length
  maxCallSize : info.maxCallSize = M
  nodup : (names ++ defs).Nodup
  resolved : ∀ x ∈ params, x ∈ names ∨ x ∈ defs
  pos : ∀ x, info.pos x = shiftedPos names params defs M x

/-- The entry of a definition is as its own parameters say: calls are checked against their
number, the `i`-th argument arrives in the slot of the `i`-th parameter, and there are no
other names. -/
structure FuncInfo.Agrees (info : FuncInfo) (ret : Dtype) (params defs : List String) : Prop where
  argCount : info.argCount = params.length
  retType : info.retType = ret
  slots : ∀ i x, params[i]? = some x →
    info.pos x = some (info.varCount + info.maxCallSize + 1 + i)
  only : ∀ x, info.pos x ≠ none → x ∈ params ∨ x ∈ defs

section Slots
variable {info : FuncInfo} {names params defs : List String} {M : ℕ}

theorem FuncInfo.Shifted.known (h : info.Shifted names params defs M) (x : String) :
    info.pos x ≠ none ↔ x ∈ names ∨ x ∈ defs := by
  rw [h.pos, shiftedPos, ne_eq, Option.map_eq_none_iff]
  by_cases hdef : x ∈ defs
  · simp [hdef]
  · by_cases hname : x ∈ names <;> simp [hdef, hname]

/-- The slot of a parameter that is in the list of the definition once. -/
theorem FuncInfo.Shifted.param (h : info.Shifted names params defs M) {x : String}
    (hx : x ∈ names) (hcount : params.count x = 1) :
    info.pos x = some (info.varCount + info.maxCallSize + 1 + names.idxOf x) := by
  have hdef : x ∉ defs := fun hdef => (List.nodup_append.mp h.nodup).2.2 x hx x hdef rfl
  rw [h.pos, shiftedPos, if_neg hdef, if_pos hx, hcount, h.varCount, h.maxCallSize,
    Option.map_some]
  congr 1
  omega

/-- **Agreement.**  The two lists fit together exactly where they are the same. -/
theorem FuncInfo.Shifted.agrees_iff (h : info.Shifted names params defs M) {ret : Dtype} :
    info.Agrees ret params defs ↔ names = params ∧ info.retType = ret := by
  obtain ⟨hnames, -, hdisj⟩ := List.nodup_append.mp h.nodup
  constructor
  · intro hagrees
    refine ⟨?_, hagrees.retType⟩
    have hsub : names ⊆ params := by
      intro x hx
      refine (hagrees.only x ((h.known x).mpr (.inl hx))).resolve_right fun hdef => ?_
      exact hdisj x hx x hdef rfl
    have hlength : params.length = names.length := hagrees.argCount.symm.trans h.argCount
    have hperm := (hnames.subperm hsub).perm_of_length_le hlength.le
    have hparams := hperm.nodup_iff.mp hnames
    refine List.ext_getElem hlength.symm fun i hi hi' => ?_
    have hmem : params[i] ∈ names := hperm.mem_iff.mpr (List.getElem_mem hi')
    have hpos := hagrees.slots i _ (List.getElem?_eq_getElem hi')
    rw [h.param hmem (List.count_eq_one_of_mem hparams (List.getElem_mem hi'))] at hpos
    have hidx : names.idxOf params[i] = i := by
      have hslot := Option.some.inj hpos
      omega
    have hget := List.getElem_idxOf (List.idxOf_lt_length_of_mem hmem)
    simpa only [hidx] using hget
  · rintro ⟨rfl, hret⟩
    refine ⟨h.argCount, hret, fun i x hx => ?_, fun x hx => (h.known x).mp hx⟩
    obtain ⟨hi, rfl⟩ := List.getElem?_eq_some_iff.mp hx
    have hmem : names[i] ∈ names := List.getElem_mem hi
    rw [h.param hmem (List.count_eq_one_of_mem hnames hmem), hnames.idxOf_getElem]

end Slots

/-! ## Definitions -/

section Definitions
variable {f : Func} {names : List String} {old : FuncInfo}

/-- The entry in which the locals are registered. -/
theorem FuncInfo.Declared.opened (h : old.Declared names) (M : ℕ) :
    ({ old with prototyped := false, maxCallSize := M } : FuncInfo).Declared names :=
  ⟨h.argCount, h.varCount, h.nodup, h.pos⟩

theorem Registered.known {func info : FuncInfo} {defs vars : List String}
    (hfunc : func.Declared names) (h : Registered func info defs vars) (x : String) :
    info.pos x ≠ none ↔ x ∈ names ∨ x ∈ defs := by
  rw [h.enters.eq, hfunc.pos]
  by_cases hdef : x ∈ defs
  · simp [hdef]
  · by_cases hname : x ∈ names <;> simp [hdef, hname]

/-- **Both passes** over a definition with a prototype. -/
theorem shifted_of_registered {params : Params} {func info info' : FuncInfo}
    {defs vars : List String} (hfunc : func.Declared names)
    (hreg : Registered func info defs vars)
    (h : calculateArgAddresses info params.node = .ok info') :
    info'.Shifted names params.names defs func.maxCallSize ∧ info'.retType = func.retType := by
  have hresolve : ∀ x ∈ params.names, info.pos x ≠ none := by
    by_contra hnot
    push Not at hnot
    obtain ⟨x, hx, hnone⟩ := hnot
    rw [calculateArgAddresses_null hx hnone] at h
    cases h
  obtain ⟨info₁, hrun, heq, hpos⟩ := calculateArgAddresses_params hresolve
  obtain rfl := Except.ok.inj (hrun.symm.trans h)
  have hvars : info.varCount = defs.length := by
    rw [hreg.eq]
    simp [hfunc.varCount]
  have hmax : info.maxCallSize = func.maxCallSize := by rw [hreg.eq]
  refine ⟨⟨?_, ?_, ?_, ?_, fun x hx => ?_, fun x => ?_⟩, ?_⟩
  · rw [heq, hreg.eq]
    exact hfunc.argCount
  · rw [heq]
    exact hvars
  · rw [heq]
    exact hmax
  · refine List.nodup_append.mpr ⟨hfunc.nodup, hreg.enters.nodup, ?_⟩
    rintro x hx y hy rfl
    have hfresh := hreg.enters.fresh x hy
    rw [hfunc.pos, if_pos hx] at hfresh
    cases hfresh
  · exact (hreg.known hfunc x).mp (hresolve x hx)
  · rw [hpos, hreg.enters.eq, hfunc.pos, hfunc.varCount, Nat.add_zero, hvars, hmax]
    rfl
  · rw [heq, hreg.eq]

/-- The locals are registered exactly if the body is well scoped under the prototype. -/
theorem registerLocVars_iff {func : FuncInfo} (hfunc : func.Declared names) (name : String)
    (body : Stmt) :
    (∃ r, registerLocVars name func body.raw = .ok r) ↔ WellScoped names body.occurrences := by
  have hdefine : ∀ x, Occurrence.define x ∈ names.map Occurrence.define ↔ x ∈ names := by simp
  have hknown : ∀ x, func.Known x ↔ False ∨ Occurrence.define x ∈ names.map Occurrence.define := by
    intro x
    rw [hdefine, FuncInfo.Known, hfunc.pos]
    simp
  have hnames : Scoped (fun _ => False) (names.map .define) := by
    have hscoped : WellScoped names [] := by
      refine ⟨by simpa [definesOf] using hfunc.nodup, fun before x after h => ?_⟩
      simp at h
    rw [wellScoped_iff, List.append_nil] at hscoped
    exact hscoped
  rw [(body.walks name func).ok_iff, wellScoped_iff, scoped_append, Scoped.congr hknown]
  exact (and_iff_right hnames).symm

/-- A function with a prototype is not opened anew. -/
theorem registerFunction_of_prototyped {s : PState} (hold : s.funcTable f.name = some old)
    (hproto : old.prototyped = true) :
    registerFunction f.children s =
      registerBody f.name s.maxArgCount { old with prototyped := false } f.params.node
        f.body.raw s := by
  have hget : getFunc f.name s = .ok (some old) s := by rw [getFunc, hold]
  have hopen : openFunction f.ret f.params.node (some old) =
      some (.ok { old with prototyped := false }) := by rw [openFunction, if_pos hproto]
  rw [registerFunction_eq, bind_ok hget, hopen]
  rfl

/-- **What `register_function` makes of a definition with a prototype.**  It follows a `NULL`
pointer exactly if the body is well scoped under the parameters of the prototype and there is
a parameter of the definition that neither they nor the locals contain; it accepts the
definition exactly if there is none and the `return` statements fit the type of the prototype. -/
theorem registerFunction_prototyped {s : PState} (hold : s.funcTable f.name = some old)
    (hproto : old.prototyped = true) (hdecl : old.Declared names) :
    ((∃ s', registerFunction f.children s = .error .nullDeref s') ↔
      WellScoped names f.body.occurrences ∧
        ∃ x ∈ f.params.names, x ∉ names ∧ x ∉ f.body.defs) ∧
    ((∃ node s', registerFunction f.children s = .ok node s' ∧ node ≠ .null) ↔
      WellScoped names f.body.occurrences ∧
        (∀ x ∈ f.params.names, x ∈ names ∨ x ∈ f.body.defs) ∧
          checkReturnValidity old.retType (f.body.node f.name) = true) := by
  let func : FuncInfo := { old with prototyped := false, maxCallSize := s.maxArgCount }
  have hfunc : func.Declared names := hdecl.opened s.maxArgCount
  have hiff := registerLocVars_iff hfunc f.name f.body
  rw [registerFunction_of_prototyped hold hproto, registerBody]
  change ((∃ s', commit f.name (registerLocVars f.name func f.body.raw) _ s = _) ↔ _) ∧
    ((∃ node s', commit f.name (registerLocVars f.name func f.body.raw) _ s = _ ∧ _) ↔ _)
  cases hloc : registerLocVars f.name func f.body.raw with
  | error e =>
      have hnot : ¬ WellScoped names f.body.occurrences := by
        rw [← hiff, hloc]
        simp
      constructor
      · refine iff_of_false ?_ fun h => hnot h.1
        rintro ⟨s', h⟩
        cases h
      · refine iff_of_false ?_ fun h => hnot h.1
        rintro ⟨node, s', h, hne⟩
        cases h
        exact hne rfl
  | ok r =>
      obtain ⟨func₁, body⟩ := r
      have hscoped : WellScoped names f.body.occurrences := hiff.mp ⟨_, hloc⟩
      obtain ⟨rfl, hreg⟩ := registerLocVars_stmt hloc
      by_cases hresolve : ∀ x ∈ f.params.names, x ∈ names ∨ x ∈ f.body.defs
      · have hpos : ∀ x ∈ f.params.names, func₁.pos x ≠ none :=
          fun x hx => (hreg.known hfunc x).mpr (hresolve x hx)
        obtain ⟨func₂, hcalc, heq, -⟩ := calculateArgAddresses_params hpos
        have hret : func₂.retType = old.retType := by rw [heq, hreg.eq]
        have hset : setFunc f.name func₂ s =
            .ok () { s with funcTable := Function.update s.funcTable f.name (some func₂) } := rfl
        simp only [commit, hcalc, hret]
        rw [bind_ok hset]
        constructor
        · refine iff_of_false ?_ ?_
          · rintro ⟨s', h⟩
            split at h <;> cases h
          · rintro ⟨-, x, hx, hname, hdef⟩
            exact (hresolve x hx).elim hname hdef
        · by_cases hvalid : checkReturnValidity old.retType (f.body.node f.name) = true
          · rw [if_pos hvalid]
            exact iff_of_true ⟨_, _, rfl, by simp⟩ ⟨hscoped, hresolve, hvalid⟩
          · rw [if_neg hvalid]
            refine iff_of_false ?_ fun h => hvalid h.2.2
            rintro ⟨node, s', h, hne⟩
            cases h
            exact hne rfl
      · have hnot := hresolve
        push Not at hnot
        obtain ⟨x, hx, hname, hdef⟩ := hnot
        have hnone : func₁.pos x = none := by
          by_contra hsome
          exact ((hreg.known hfunc x).mp hsome).elim hname hdef
        simp only [commit, calculateArgAddresses_null hx hnone]
        constructor
        · exact iff_of_true ⟨s, rfl⟩ ⟨hscoped, x, hx, hname, hdef⟩
        · refine iff_of_false ?_ fun h => hresolve h.2.1
          rintro ⟨node, s', h, -⟩
          cases h

/-- **The entry that an accepted definition leaves**. -/
theorem registerFunction_shifted {s s' : PState} {node : Node}
    (hold : s.funcTable f.name = some old) (hproto : old.prototyped = true)
    (hdecl : old.Declared names) (h : registerFunction f.children s = .ok node s')
    (hne : node ≠ .null) :
    ∃ info, s'.funcTable f.name = some info ∧ info.retType = old.retType ∧
      info.Shifted names f.params.names f.body.defs s.maxArgCount := by
  rw [registerFunction_of_prototyped hold hproto, registerBody] at h
  rcases commit_eq_ok h with ⟨-, rfl⟩ | ⟨⟨func₁, body⟩, hloc, h⟩
  · exact absurd rfl hne
  obtain ⟨-, hreg⟩ := registerLocVars_stmt hloc
  cases hcalc : calculateArgAddresses func₁ f.params.node with
  | error e =>
      simp only [hcalc] at h
      cases h
  | ok func₂ =>
      obtain ⟨hshifted, hret⟩ :=
        shifted_of_registered (hdecl.opened s.maxArgCount) hreg hcalc
      simp only [hcalc] at h
      have hset : setFunc f.name func₂ s =
          .ok () { s with funcTable := Function.update s.funcTable f.name (some func₂) } := rfl
      rw [bind_ok hset] at h
      refine ⟨func₂, ?_, hret, hshifted⟩
      split at h <;> cases h <;> exact Function.update_self ..

/-- `register_function` follows no `NULL` pointer, and where it accepts the definition, the
entry is as the definition says. -/
structure DefinesSoundly (f : Func) (s : PState) : Prop where
  noNull : ∀ s', registerFunction f.children s ≠ .error .nullDeref s'
  agrees : ∀ node s', registerFunction f.children s = .ok node s' → node ≠ .null →
    ∃ info, s'.funcTable f.name = some info ∧ info.Agrees f.ret f.params.names f.body.defs

theorem definesSoundly_iff {s : PState} (hold : s.funcTable f.name = some old)
    (hproto : old.prototyped = true) (hdecl : old.Declared names) :
    DefinesSoundly f s ↔ (WellScoped names f.body.occurrences →
      (∀ x ∈ f.params.names, x ∈ names ∨ x ∈ f.body.defs) ∧
      (checkReturnValidity old.retType (f.body.node f.name) = true →
        names = f.params.names ∧ old.retType = f.ret)) := by
  obtain ⟨hnull, haccept⟩ := registerFunction_prototyped hold hproto hdecl
  constructor
  · rintro ⟨hsafe, hagrees⟩ hscoped
    have hknown : ∀ x ∈ f.params.names, x ∈ names ∨ x ∈ f.body.defs := by
      by_contra hnot
      push Not at hnot
      obtain ⟨s', h⟩ := hnull.mpr ⟨hscoped, hnot⟩
      exact hsafe s' h
    refine ⟨hknown, fun hvalid => ?_⟩
    obtain ⟨node, s', h, hne⟩ := haccept.mpr ⟨hscoped, hknown, hvalid⟩
    obtain ⟨info, hinfo, hret, hshifted⟩ := registerFunction_shifted hold hproto hdecl h hne
    obtain ⟨info', hinfo', hsound⟩ := hagrees node s' h hne
    obtain rfl := Option.some.inj (hinfo.symm.trans hinfo')
    rw [← hret]
    exact hshifted.agrees_iff.mp hsound
  · intro hcond
    refine ⟨fun s' h => ?_, fun node s' h hne => ?_⟩
    · obtain ⟨hscoped, x, hx, hname, hdef⟩ := hnull.mp ⟨s', h⟩
      exact ((hcond hscoped).1 x hx).elim hname hdef
    · obtain ⟨hscoped, -, hvalid⟩ := haccept.mp ⟨node, s', h, hne⟩
      obtain ⟨info, hinfo, hret, hshifted⟩ := registerFunction_shifted hold hproto hdecl h hne
      refine ⟨info, hinfo, hshifted.agrees_iff.mpr ?_⟩
      rw [hret]
      exact (hcond hscoped).2 hvalid

end Definitions

/-! ## Programs -/

/-- The prototype of a definition that follows it. -/
theorem DefinedAt.prototype {pre : List Item} {f : Func} {t₁ t₂ t : FuncTable}
    (h : DefinedAt pre f t₁ t₂ t) {p : Proto} (hp : .proto p ∈ pre) (hname : p.name = f.name) :
    ∃ old, t₁ f.name = some old ∧ old.prototyped = true ∧ old.Declared p.params.names ∧
      old.retType = p.ret := by
  obtain ⟨func, _, hopen, -⟩ := h.item.entry
  have hsome : (t₁ f.name).isSome = true := by
    rw [h.before.isSome_iff]
    exact .inr ⟨_, hp, hname⟩
  obtain ⟨old, hold⟩ := Option.isSome_iff_exists.mp hsome
  have hproto : old.prototyped = true := by
    rcases (openFunction_eq hopen).2 with ⟨hnone, -⟩ | ⟨info, hinfo, hproto, -⟩
    · rw [hold] at hnone
      cases hnone
    · rwa [Option.some.inj (hold.symm.trans hinfo)]
  have hold' : t₁ p.name = some old := by rw [hname, hold]
  exact ⟨old, hold, hproto, h.before.of_prototype hp hold' hproto⟩

/-- The entry of a definition with a prototype. -/
theorem DefinedAt.shifted {pre : List Item} {f : Func} {t₁ t₂ t : FuncTable}
    (h : DefinedAt pre f t₁ t₂ t) {p : Proto} (hp : .proto p ∈ pre) (hname : p.name = f.name) :
    ∃ info, t f.name = some info ∧ info.retType = p.ret ∧
      info.Shifted p.params.names f.params.names f.body.defs f.maxCall := by
  obtain ⟨old, hold, hproto, hdecl, hret⟩ := h.prototype hp hname
  obtain ⟨-, -, func₀, func₁, func₂, hopen, hloc, hcalc, -, ht₂⟩ := h.item
  rw [hold, openFunction, if_pos hproto] at hopen
  obtain rfl := Except.ok.inj (Option.some.inj hopen)
  obtain ⟨-, hreg⟩ := registerLocVars_stmt hloc
  obtain ⟨hshifted, hret'⟩ := shifted_of_registered (hdecl.opened f.maxCall) hreg hcalc
  refine ⟨func₂, ?_, hret'.trans hret, hshifted⟩
  rw [h.entry, ht₂, Function.update_self]

/-- The entry of a prototype whose function has not been defined. -/
theorem Registers.undefined {items : List Item} {t : FuncTable} {p : Proto} {f : Func}
    (hreg : Registers (fun _ => none) items t) (hp : .proto p ∈ items)
    (hname : p.name = f.name) (hnew : f.name ∉ defined items) :
    ∃ old, t f.name = some old ∧ old.prototyped = true ∧ old.Declared p.params.names ∧
      old.retType = p.ret := by
  have hsome : (t f.name).isSome = true := by
    rw [hreg.isSome_iff]
    exact .inr ⟨_, hp, hname⟩
  obtain ⟨old, hold⟩ := Option.isSome_iff_exists.mp hsome
  have hproto := hreg.prototyped hnew (by simp) old hold
  have hold' : t p.name = some old := by rw [hname, hold]
  exact ⟨old, hold, hproto, hreg.of_prototype hp hold' hproto⟩

/-- **A definition after its prototype.**  When the parser has read some items with a
prototype of a function and comes to its definition, `register_function` follows a `NULL`
pointer exactly if the body is well scoped under the parameters of the prototype and a
parameter of the definition is neither one of them nor a local, and it accepts the definition
exactly if there is no such parameter and the `return` statements fit the type of the
prototype. -/
theorem definition_after_prototype {items : List Item} {s : PState} {p : Proto} {f : Func}
    (hreg : Registers (fun _ => none) items s.funcTable) (hp : .proto p ∈ items)
    (hname : p.name = f.name) (hnew : f.name ∉ defined items) :
    ((∃ s', registerFunction f.children s = .error .nullDeref s') ↔
      WellScoped p.params.names f.body.occurrences ∧
        ∃ x ∈ f.params.names, x ∉ p.params.names ∧ x ∉ f.body.defs) ∧
    ((∃ node s', registerFunction f.children s = .ok node s' ∧ node ≠ .null) ↔
      WellScoped p.params.names f.body.occurrences ∧
        (∀ x ∈ f.params.names, x ∈ p.params.names ∨ x ∈ f.body.defs) ∧
          checkReturnValidity p.ret (f.body.node f.name) = true) := by
  obtain ⟨old, hold, hproto, hdecl, hret⟩ := hreg.undefined hp hname hnew
  rw [← hret]
  exact registerFunction_prototyped hold hproto hdecl

/-- `int f(int a);` -/
def protoF : Proto := ⟨.dtypeInt, "f", .last .dtypeInt "a"⟩

/-- `int f(int b) { return a; }` -/
def renamedF : Func :=
  ⟨.dtypeInt, "f", .last .dtypeInt "b", .seq (.ret (some (.unary (.var "a")))) .skip, 0⟩

/-- A state in which only the prototype has been read. -/
theorem registers_proto {p : Proto} {info : FuncInfo}
    (h : registerArgs { FuncInfo.fresh p.ret with prototyped := true } p.params.node = .ok info) :
    ∃ s : PState, Registers (fun _ => none) [.proto p] s.funcTable :=
  ⟨⟨[], 0, Function.update (fun _ => none) p.name (some info)⟩, .cons ⟨rfl, info, h, rfl⟩ (.nil _)⟩

theorem protoF_registers : ∃ s : PState, Registers (fun _ => none) [.proto protoF] s.funcTable :=
  registers_proto rfl

theorem renamedF_scoped : WellScoped protoF.params.names renamedF.body.occurrences := by
  rw [wellScoped_iff]
  simp [protoF, renamedF, Params.names, Stmt.occurrences, usesOf, exprVars?, Expr.vars,
    Unary.vars, Scoped]

theorem definition_after_prototype_small : ∃ s : PState,
    Registers (fun _ => none) [.proto protoF] s.funcTable ∧
      ∃ s', registerFunction renamedF.children s = .error .nullDeref s' := by
  obtain ⟨s, hreg⟩ := protoF_registers
  refine ⟨s, hreg, ?_⟩
  have hnames : renamedF.params.names = ["b"] ∧ protoF.params.names = ["a"] := ⟨rfl, rfl⟩
  refine (definition_after_prototype (f := renamedF) hreg List.mem_cons_self rfl
    (by simp [defined])).1.mpr ⟨renamedF_scoped, "b", ?_, ?_, ?_⟩
  · simp [hnames.1]
  · simp [hnames.2]
  · simp [renamedF, Stmt.defs]

/-- **Definitions and prototypes.**  In an accepted program, the entry of a definition that
follows a prototype has the argument count, the type and the names of the prototype, and
exactly the slots of `shiftedPos`; every parameter of the definition is known.  It is as the
definition says if and only if the two lists of names and the two types are the same. -/
theorem prototypes_agree {fuel : ℕ} {first : List Token} {node : Node} {s : PState}
    (h : parseTokenlist fuel first = .ok node s) (hne : node ≠ .null) :
    ∃ items w eof rest, first = w ++ eof :: rest ∧ eof.type = .tokEof ∧ Written items w ∧
      node = headNode items ∧ ∀ pre f post, items = pre ++ .func f :: post →
        ∀ p, .proto p ∈ pre → p.name = f.name → ∃ info, s.funcTable f.name = some info ∧
          info.retType = p.ret ∧
          info.Shifted p.params.names f.params.names f.body.defs f.maxCall ∧
          (info.Agrees f.ret f.params.names f.body.defs ↔
            p.params.names = f.params.names ∧ p.ret = f.ret) := by
  obtain ⟨items, w, eof, rest, hfirst, heof, hwritten, hnode, hreg, -⟩ :=
    parseTokenlist_written h hne
  refine ⟨items, w, eof, rest, hfirst, heof, hwritten, hnode,
    fun pre f post hitems p hp hname => ?_⟩
  rw [hitems] at hreg
  obtain ⟨t₁, t₂, hat⟩ := hreg.at
  obtain ⟨info, hinfo, hret, hshifted⟩ := hat.shifted hp hname
  refine ⟨info, hinfo, hret, hshifted, ?_⟩
  rw [hshifted.agrees_iff, hret]

/-- `int f(int a, int b); int f(int b, int a) { return a; } void main(void) { print f(1, 2); }` -/
def swappedNames : List Token :=
  [⟨.tokInt, "int"⟩, ⟨.tokIdentifier, "f"⟩, ⟨.tokOpenpa, "("⟩, ⟨.tokInt, "int"⟩,
   ⟨.tokIdentifier, "a"⟩, ⟨.tokComma, ","⟩, ⟨.tokInt, "int"⟩, ⟨.tokIdentifier, "b"⟩,
   ⟨.tokClosepa, ")"⟩, ⟨.tokSemicl, ";"⟩,
   ⟨.tokInt, "int"⟩, ⟨.tokIdentifier, "f"⟩, ⟨.tokOpenpa, "("⟩, ⟨.tokInt, "int"⟩,
   ⟨.tokIdentifier, "b"⟩, ⟨.tokComma, ","⟩, ⟨.tokInt, "int"⟩, ⟨.tokIdentifier, "a"⟩,
   ⟨.tokClosepa, ")"⟩, ⟨.tokOpenbr, "\x7b"⟩, ⟨.tokReturn, "return"⟩, ⟨.tokIdentifier, "a"⟩,
   ⟨.tokSemicl, ";"⟩, ⟨.tokClosebr, "\x7d"⟩,
   ⟨.tokVoid, "void"⟩, ⟨.tokIdentifier, "main"⟩, ⟨.tokOpenpa, "("⟩, ⟨.tokVoid, "void"⟩,
   ⟨.tokClosepa, ")"⟩, ⟨.tokOpenbr, "\x7b"⟩, ⟨.tokPrint, "print"⟩, ⟨.tokIdentifier, "f"⟩,
   ⟨.tokOpenpa, "("⟩, ⟨.tokIntliteral, "1"⟩, ⟨.tokComma, ","⟩, ⟨.tokIntliteral, "2"⟩,
   ⟨.tokClosepa, ")"⟩, ⟨.tokSemicl, ";"⟩, ⟨.tokClosebr, "\x7d"⟩, ⟨.tokEof, ""⟩]

def swappedF : Func where
  ret := .dtypeInt
  name := "f"
  params := .cons .dtypeInt "b" (.last .dtypeInt "a")
  body := .seq (.ret (some (.unary (.var "a")))) .skip
  maxCall := 0

def swappedMain : Func where
  ret := .dtypeVoid
  name := "main"
  params := .void
  body := .seq (.print (.unary (.call "f"
    (.cons (.unary (.lit 1)) (.last (.unary (.lit 2))))))) .skip
  maxCall := 2

def swappedProto : Proto := ⟨.dtypeInt, "f", .cons .dtypeInt "a" (.last .dtypeInt "b")⟩

theorem swappedProto_registers :
    ∃ s : PState, Registers (fun _ => none) [.proto swappedProto] s.funcTable :=
  registers_proto rfl

/-- The function table after the prototype of `f`. -/
def swappedTable : FuncTable := fun name =>
  if name = "f" then
    some { retType := .dtypeInt, prototyped := true, addr := none, argCount := 2, varCount := 0,
           maxCallSize := 0, varTable := fun _ => none }
  else none

theorem swappedNames_written :
    Written [.proto swappedProto, .func swappedF, .func swappedMain] swappedNames.dropLast :=
  ⟨swappedNames.take 10, _, rfl,
    parses_of_read 30 (.initial (swappedNames.take 10)) (by decide +kernel),
    (swappedNames.drop 10).take 14, _, rfl,
    ⟨parses_of_read 30 (.initial ((swappedNames.drop 10).take 14)) (by decide +kernel),
      swappedF.body.isMaxCall⟩,
    (swappedNames.drop 24).take 15, _, rfl,
    ⟨parses_of_read 30 ⟨(swappedNames.drop 24).take 15, 0, swappedTable⟩ (by decide +kernel),
      swappedMain.body.isMaxCall⟩, rfl⟩

theorem swappedNames_read : readOf (parseTokenlist 60 swappedNames) =
    some (headNode [.proto swappedProto, .func swappedF, .func swappedMain], []) := by
  decide +kernel

/-- The entry is not as the definition says: its names are those of the prototype. -/
theorem prototypes_agree_small : ∃ node s info, parseTokenlist 60 swappedNames = .ok node s ∧
    s.funcTable "f" = some info ∧ info.retType = .dtypeInt ∧
    info.Shifted ["a", "b"] ["b", "a"] [] 0 ∧ ¬ info.Agrees .dtypeInt ["b", "a"] [] := by
  obtain ⟨s, hparse, -⟩ := readOf_eq_some swappedNames_read
  obtain ⟨items, w, eof, rest, hfirst, heof, hwritten, -, hall⟩ :=
    prototypes_agree hparse (by simp [headNode, inner])
  have hsplit : swappedNames.dropLast ++ [⟨.tokEof, ""⟩] = w ++ eof :: rest := hfirst
  obtain rfl := (swappedNames_written.unique_of_eof rfl hwritten heof hsplit).1
  obtain ⟨info, hinfo, hret, hshifted, hagrees⟩ :=
    hall [.proto swappedProto] swappedF [.func swappedMain] rfl swappedProto List.mem_cons_self rfl
  refine ⟨_, s, info, hparse, hinfo, hret, hshifted, fun h => ?_⟩
  have hsame := (hagrees.mp h).1
  revert hsame
  decide

/-! ## Agreement -/

/-- **When a definition agrees with its prototype.**  When the parser has read some items with
a prototype of a function and comes to its definition, the definition is made soundly exactly
if its body is not well scoped under the parameters of the prototype, or all its own parameters
are known and, where the `return` statements fit the type of the prototype, the two lists of
names and the two types are the same.  In an accepted program that goes on from there, the
entry of the function is as the definition says exactly if they are the same. -/
theorem definition_agrees_iff {items : List Item} {s : PState} {p : Proto} {f : Func}
    (hreg : Registers (fun _ => none) items s.funcTable) (hp : .proto p ∈ items)
    (hname : p.name = f.name) (hnew : f.name ∉ defined items) :
    (DefinesSoundly f s ↔ (WellScoped p.params.names f.body.occurrences →
      (∀ x ∈ f.params.names, x ∈ p.params.names ∨ x ∈ f.body.defs) ∧
      (checkReturnValidity p.ret (f.body.node f.name) = true →
        p.params.names = f.params.names ∧ p.ret = f.ret))) ∧
    ∀ fuel post w eof rest node s', Written (items ++ .func f :: post) w → eof.type = .tokEof →
      parseTokenlist fuel (w ++ eof :: rest) = .ok node s' → node ≠ .null →
      ∃ info, s'.funcTable f.name = some info ∧
        (info.Agrees f.ret f.params.names f.body.defs ↔
          p.params.names = f.params.names ∧ p.ret = f.ret) := by
  constructor
  · obtain ⟨old, hold, hproto, hdecl, hret⟩ := hreg.undefined hp hname hnew
    rw [← hret]
    exact definesSoundly_iff hold hproto hdecl
  · intro fuel post w eof rest node s' hw heof h hne
    obtain ⟨items', w', eof', rest', hfirst, heof', hwritten, -, hreg', -⟩ :=
      parseTokenlist_written h hne
    obtain rfl := (hw.unique_of_eof heof hwritten heof' hfirst).1
    obtain ⟨t₁, t₂, hat⟩ := hreg'.at
    obtain ⟨info, hinfo, hret, hshifted⟩ := hat.shifted hp hname
    refine ⟨info, hinfo, ?_⟩
    rw [hshifted.agrees_iff, hret]

/-- `int f(int a); int f(int b) { return a; }` -/
def renamedNames : List Token :=
  [⟨.tokInt, "int"⟩, ⟨.tokIdentifier, "f"⟩, ⟨.tokOpenpa, "("⟩, ⟨.tokInt, "int"⟩,
   ⟨.tokIdentifier, "a"⟩, ⟨.tokClosepa, ")"⟩, ⟨.tokSemicl, ";"⟩,
   ⟨.tokInt, "int"⟩, ⟨.tokIdentifier, "f"⟩, ⟨.tokOpenpa, "("⟩, ⟨.tokInt, "int"⟩,
   ⟨.tokIdentifier, "b"⟩, ⟨.tokClosepa, ")"⟩, ⟨.tokOpenbr, "\x7b"⟩, ⟨.tokReturn, "return"⟩,
   ⟨.tokIdentifier, "a"⟩, ⟨.tokSemicl, ";"⟩, ⟨.tokClosebr, "\x7d"⟩, ⟨.tokEof, ""⟩]

/-- The entries that an accepting run leaves. -/
def tableOf : EStateM.Result Abort PState Node → Option FuncTable
  | .ok node s => if node = .null then none else some s.funcTable
  | .error _ _ => none

def abortOf : EStateM.Result Abort PState Node → Option Abort
  | .ok _ _ => none
  | .error e _ => some e

theorem tableOf_eq_some {r : EStateM.Result Abort PState Node} {t : FuncTable}
    (h : tableOf r = some t) : ∃ node s, r = .ok node s ∧ node ≠ .null ∧ s.funcTable = t := by
  cases r with
  | error e s => cases h
  | ok node s =>
      simp only [tableOf] at h
      split at h
      · cases h
      · next hne => exact ⟨node, s, rfl, hne, Option.some.inj h⟩

theorem abortOf_eq_some {r : EStateM.Result Abort PState Node} {e : Abort}
    (h : abortOf r = some e) : ∃ s, r = .error e s := by
  cases r with
  | ok node s => cases h
  | error e' s =>
      obtain rfl := Option.some.inj h
      exact ⟨s, rfl⟩

theorem parameters_misplaced :
    (∃ node s info, parseTokenlist 60 swappedNames = .ok node s ∧ node ≠ .null ∧
      s.funcTable "f" = some info ∧ ¬ info.Agrees .dtypeInt ["b", "a"] []) ∧
    ∃ s, parseTokenlist 60 renamedNames = .error .nullDeref s := by
  constructor
  · have hslots : ((tableOf (parseTokenlist 60 swappedNames)).bind (· "f")).map
        (fun info => (info.pos "b", info.varCount + info.maxCallSize)) = some (some 2, 0) := by
      decide +kernel
    obtain ⟨info, hentry, hvalues⟩ := Option.map_eq_some_iff.mp hslots
    obtain ⟨t, htable, hinfo⟩ := Option.bind_eq_some_iff.mp hentry
    obtain ⟨node, s, hparse, hne, rfl⟩ := tableOf_eq_some htable
    refine ⟨node, s, info, hparse, hne, hinfo, fun h => ?_⟩
    obtain ⟨hpos, hframe⟩ := Prod.mk.inj hvalues
    have hslot := Option.some.inj (hpos.symm.trans (h.slots 0 "b" rfl))
    omega
  · exact abortOf_eq_some (by decide +kernel)

/-- `int f(int a) { return a; }` -/
def keptF : Func := { renamedF with params := .last .dtypeInt "a" }

theorem definition_agrees_iff_small :
    (∃ s : PState, Registers (fun _ => none) [.proto protoF] s.funcTable ∧
      ¬ DefinesSoundly renamedF s ∧ DefinesSoundly keptF s) ∧
    ∃ node s info, parseTokenlist 60 swappedNames = .ok node s ∧
      s.funcTable "f" = some info ∧ ¬ info.Agrees .dtypeInt ["b", "a"] [] := by
  constructor
  · obtain ⟨s, hreg⟩ := protoF_registers
    refine ⟨s, hreg, fun h => ?_, ?_⟩
    · have hknown := ((definition_agrees_iff (f := renamedF) hreg List.mem_cons_self rfl
        (by simp [defined])).1.mp h renamedF_scoped).1 "b" List.mem_cons_self
      simp [protoF, renamedF, Params.names, Stmt.defs] at hknown
    · exact (definition_agrees_iff (f := keptF) hreg List.mem_cons_self rfl
        (by simp [defined])).1.mpr fun _ => ⟨fun x hx => .inl hx, fun _ => ⟨rfl, rfl⟩⟩
  · obtain ⟨s, hparse, -⟩ := readOf_eq_some swappedNames_read
    obtain ⟨s₁, hreg⟩ := swappedProto_registers
    obtain ⟨info, hinfo, hagrees⟩ := (definition_agrees_iff (f := swappedF) hreg
      List.mem_cons_self rfl (by simp [defined])).2 60 [.func swappedMain] swappedNames.dropLast
        ⟨.tokEof, ""⟩ [] _ s swappedNames_written rfl hparse (by simp [headNode, inner])
    refine ⟨_, s, info, hparse, hinfo, fun h => ?_⟩
    have hsame := (hagrees.mp h).1
    revert hsame
    decide

end Bispe
