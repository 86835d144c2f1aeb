import Bispe.Compiler.Accepted
import Bispe.Compiler.Semantics

/-!
# The declarations of a program

What the function table of an accepted program says of each function that the program
defines.  A name is declared by one prototype at most and defined once; from its definition
on its entry stays as it is.

## Main definitions

* `defined` — the names a program defines.
* `Registers.split` — the tables before and after an item.
* `DefinedAt` — a definition in its place, with the tables before and after it.
* `DefinedAt.laid` — the frame of a definition whose prototype repeats its parameters.
-/

namespace Bispe

/-- The names a program defines. -/
def defined : List Item → List String
  | [] => []
  | .proto _ :: items => defined items
  | .func f :: items => f.name :: defined items

theorem defined_append (l r : List Item) : defined (l ++ r) = defined l ++ defined r := by
  induction l with
  | nil => rfl
  | cons item l ih => cases item <;> simp [defined, ih]

theorem definitions_eq_some {items : List Item} {g : String} {f : Func}
    (h : definitions items g = some f) : .func f ∈ items ∧ f.name = g := by
  induction items with
  | nil => simp [definitions] at h
  | cons item items ih =>
      cases item with
      | proto p => exact ⟨List.mem_cons_of_mem _ (ih h).1, (ih h).2⟩
      | func f' =>
          rw [definitions] at h
          split at h
          · next hname =>
            obtain rfl := Option.some.inj h
            exact ⟨List.mem_cons_self, hname⟩
          · exact ⟨List.mem_cons_of_mem _ (ih h).1, (ih h).2⟩

theorem definitions_isSome {items : List Item} {g : String} :
    (definitions items g).isSome = true ↔ g ∈ defined items := by
  induction items with
  | nil => simp [definitions, defined]
  | cons item items ih =>
      cases item with
      | proto p => exact ih
      | func f =>
          simp only [definitions, defined, List.mem_cons]
          split
          · next hname => simp [hname]
          · next hname => simp [ih, Ne.symm hname]

/-! ## One item -/

/-- The arguments only change the table of a function. -/
theorem calculateArgAddresses_frame {params : Params} {func info : FuncInfo}
    (h : calculateArgAddresses func params.node = .ok info) :
    info = { func with varTable := info.varTable } := by
  by_cases hresolve : ∀ x ∈ params.names, func.pos x ≠ none
  · obtain ⟨info', hrun, heq, -⟩ := calculateArgAddresses_params hresolve
    rw [hrun] at h
    obtain rfl := Except.ok.inj h
    exact heq
  · push Not at hresolve
    obtain ⟨x, hx, hnone⟩ := hresolve
    rw [calculateArgAddresses_null hx hnone] at h
    cases h

/-- The entry of a function before its locals are registered. -/
theorem openFunction_eq {d : Dtype} {params : Params} {entry : Option FuncInfo} {func : FuncInfo}
    (h : openFunction d params.node entry = some (.ok func)) :
    func.prototyped = false ∧
      ((entry = none ∧ registerArgs (.fresh d) params.node = .ok func) ∨
        ∃ info, entry = some info ∧ info.prototyped = true ∧
          func = { info with prototyped := false }) := by
  cases entry with
  | none =>
      have hargs := Option.some.inj h
      have hproto : func.prototyped = false := by rw [(registerArgs_params hargs).1]; rfl
      exact ⟨hproto, .inl ⟨rfl, hargs⟩⟩
  | some info =>
      rw [openFunction] at h
      split at h
      · next hproto =>
        obtain rfl := Except.ok.inj (Option.some.inj h)
        exact ⟨rfl, .inr ⟨info, rfl, hproto, rfl⟩⟩
      · cases h

/-- **The entry of a definition** is that of `openFunction` with another frame. -/
theorem Func.Registers.entry {f : Func} {t t' : FuncTable} (h : f.Registers t t') :
    ∃ func info, openFunction f.ret f.params.node (t f.name) = some (.ok func) ∧
      t' = Function.update t f.name (some info) ∧
      info = { func with
        varCount := func.varCount + f.body.defs.length, maxCallSize := f.maxCall
        varTable := info.varTable } := by
  obtain ⟨-, -, func₀, func₁, func₂, hopen, hloc, hcalc, -, rfl⟩ := h
  obtain ⟨-, hreg⟩ := registerLocVars_stmt hloc
  refine ⟨func₀, func₂, hopen, rfl, ?_⟩
  rw [calculateArgAddresses_frame hcalc, hreg.eq]

/-- The name an item is about. -/
def Item.name : Item → String
  | .proto p => p.name
  | .func f => f.name

def Item.params : Item → Params
  | .proto p => p.params
  | .func f => f.params

def Item.ret : Item → Dtype
  | .proto p => p.ret
  | .func f => f.ret

theorem Item.Registers.update {item : Item} {t t' : FuncTable} (h : item.Registers t t') :
    ∃ info, t' = Function.update t item.name (some info) ∧
      ((∃ p, item = .proto p) → t item.name = none ∧ info.prototyped = true) ∧
      ((∃ f, item = .func f) → info.prototyped = false) := by
  cases item with
  | proto p =>
      obtain ⟨hnew, func, hargs, rfl⟩ := h
      have hproto : func.prototyped = true := by rw [(registerArgs_params hargs).1]
      exact ⟨func, rfl, fun _ => ⟨hnew, hproto⟩, fun ⟨f, hf⟩ => by simp at hf⟩
  | func f =>
      obtain ⟨func, info, hopen, rfl, hinfo⟩ := Func.Registers.entry h
      have hproto : info.prototyped = false := by
        rw [hinfo]
        exact (openFunction_eq hopen).1
      exact ⟨info, rfl, fun ⟨p, hp⟩ => by simp at hp, fun _ => hproto⟩

/-- The name of a prototype or a definition has not been defined. -/
theorem Item.Registers.undefined {item : Item} {t t' : FuncTable} (h : item.Registers t t')
    {info : FuncInfo} (hinfo : t item.name = some info) : info.prototyped = true := by
  cases item with
  | proto p =>
      have hnew : t p.name = none := h.1
      rw [show t p.name = some info from hinfo] at hnew
      cases hnew
  | func f =>
      obtain ⟨func, _, hopen, -⟩ := Func.Registers.entry h
      rw [show t f.name = some info from hinfo] at hopen
      rcases (openFunction_eq hopen).2 with ⟨hnone, -⟩ | ⟨info', hsome, hproto, -⟩
      · cases hnone
      · rw [Option.some.inj hsome]
        exact hproto

/-- The argument count and the type of an entry are those of its first item. -/
theorem Item.Registers.counts {item : Item} {t t' : FuncTable} (h : item.Registers t t') :
    ∃ info, t' = Function.update t item.name (some info) ∧
      ((∃ old, t item.name = some old ∧ info.argCount = old.argCount ∧
          info.retType = old.retType) ∨
        (t item.name = none ∧ info.argCount = item.params.names.length ∧
          info.retType = item.ret)) := by
  cases item with
  | proto p =>
      obtain ⟨hnew, func, hargs, rfl⟩ := h
      refine ⟨func, rfl, .inr ⟨hnew, ?_⟩⟩
      rw [(registerArgs_params hargs).1]
      simp [FuncInfo.fresh, Item.params, Item.ret]
  | func f =>
      obtain ⟨func, info, hopen, rfl, hinfo⟩ := Func.Registers.entry h
      have hcount : info.argCount = func.argCount ∧ info.retType = func.retType := by
        rw [hinfo]
        exact ⟨rfl, rfl⟩
      refine ⟨info, rfl, ?_⟩
      rcases (openFunction_eq hopen).2 with ⟨hnone, hargs⟩ | ⟨old, hold, -, rfl⟩
      · refine .inr ⟨hnone, ?_⟩
        rw [hcount.1, hcount.2, (registerArgs_params hargs).1]
        simp [FuncInfo.fresh, Item.params, Item.ret]
      · exact .inl ⟨old, hold, hcount⟩

theorem Item.params_le_size (item : Item) : 2 * item.params.names.length ≤ item.size := by
  cases item <;> simp [Item.size, Item.params]

/-! ## Whole programs -/

namespace Registers

variable {t t' : FuncTable} {items : List Item} {g : String} {info : FuncInfo}

theorem split {l r : List Item} (h : Registers t (l ++ r) t') :
    ∃ t₁, Registers t l t₁ ∧ Registers t₁ r t' := by
  induction l generalizing t with
  | nil => exact ⟨t, .nil t, h⟩
  | cons item l ih =>
      cases h with
      | cons hitem hrest =>
          obtain ⟨t₁, hl, hr⟩ := ih hrest
          exact ⟨t₁, .cons hitem hl, hr⟩

/-- **The entry of a defined function** stays as it is, and is not defined again. -/
theorem keeps (h : Registers t items t') (hinfo : t g = some info)
    (hdef : info.prototyped = false) : t' g = some info ∧ g ∉ defined items := by
  induction h with
  | nil t => exact ⟨hinfo, by simp [defined]⟩
  | @cons t t₁ t' item items hitem hrest ih =>
      have hne : item.name ≠ g := by
        rintro rfl
        have hproto := hitem.undefined hinfo
        rw [hdef] at hproto
        cases hproto
      obtain ⟨info', rfl, -, -⟩ := hitem.update
      rw [Function.update_of_ne hne.symm] at ih
      obtain ⟨hlast, hnot⟩ := ih hinfo
      refine ⟨hlast, ?_⟩
      cases item with
      | proto p => exact hnot
      | func f =>
          rw [defined, List.mem_cons, not_or]
          exact ⟨hne.symm, hnot⟩

theorem nodup (h : Registers t items t') : (defined items).Nodup := by
  induction h with
  | nil t => exact List.nodup_nil
  | @cons t t₁ t' item items hitem hrest ih =>
      cases item with
      | proto p => exact ih
      | func f =>
          obtain ⟨info, rfl, -, hproto⟩ := hitem.update
          rw [defined, List.nodup_cons]
          exact ⟨(hrest.keeps (Function.update_self ..) (hproto ⟨f, rfl⟩)).2, ih⟩

/-- Addresses are not set while functions are registered. -/
theorem addr (h : Registers t items t') (hnone : ∀ g info, t g = some info → info.addr = none) :
    ∀ g info, t' g = some info → info.addr = none := by
  induction h with
  | nil t => exact hnone
  | @cons t t₁ t' item items hitem hrest ih =>
      refine ih fun g info hinfo => ?_
      have hentry : ∃ info', t₁ = Function.update t item.name (some info') ∧ info'.addr = none := by
        cases item with
        | proto p =>
            obtain ⟨-, func, hargs, rfl⟩ := hitem
            refine ⟨func, rfl, ?_⟩
            rw [(registerArgs_params hargs).1]
            rfl
        | func f =>
            obtain ⟨func, info', hopen, rfl, hinfo'⟩ := Func.Registers.entry hitem
            refine ⟨info', rfl, ?_⟩
            rw [hinfo']
            rcases (openFunction_eq hopen).2 with ⟨-, hargs⟩ | ⟨info₀, hinfo₀, -, rfl⟩
            · simp only
              rw [(registerArgs_params hargs).1]
              rfl
            · exact hnone f.name info₀ hinfo₀
      obtain ⟨info', rfl, haddr⟩ := hentry
      by_cases hg : g = item.name
      · subst hg
        rw [Function.update_self] at hinfo
        rw [← Option.some.inj hinfo]
        exact haddr
      · rw [Function.update_of_ne hg] at hinfo
        exact hnone g info hinfo

/-- **The entry of a function that is only declared** is that of its prototype. -/
theorem declared (h : Registers t items t') {all : List Item} (hsub : ∀ item ∈ items, item ∈ all)
    (hdecl : ∀ g info, t g = some info → info.prototyped = true →
      ∃ p, .proto p ∈ all ∧ p.name = g ∧ info.Declared p.params.names) :
    ∀ g info, t' g = some info → info.prototyped = true →
      ∃ p, .proto p ∈ all ∧ p.name = g ∧ info.Declared p.params.names := by
  induction h with
  | nil t => exact hdecl
  | @cons t t₁ t' item items hitem hrest ih =>
      refine ih (fun x hx => hsub x (List.mem_cons_of_mem _ hx)) fun g info hinfo hproto => ?_
      cases item with
      | proto p =>
          obtain ⟨-, func, hargs, rfl⟩ := hitem
          by_cases hg : g = p.name
          · subst hg
            rw [Function.update_self] at hinfo
            obtain rfl := Option.some.inj hinfo
            exact ⟨p, hsub _ List.mem_cons_self, rfl,
              (registerArgs_declared rfl rfl (fun _ => rfl) hargs).2⟩
          · rw [Function.update_of_ne hg] at hinfo
            exact hdecl g info hinfo hproto
      | func f =>
          obtain ⟨info', rfl, -, hdef⟩ := hitem.update
          by_cases hg : g = f.name
          · subst hg
            rw [show (Item.func f).name = f.name from rfl, Function.update_self] at hinfo
            obtain rfl := Option.some.inj hinfo
            rw [hdef ⟨f, rfl⟩] at hproto
            cases hproto
          · rw [show (Item.func f).name = f.name from rfl, Function.update_of_ne hg] at hinfo
            exact hdecl g info hinfo hproto

/-- **Argument counts** stay as they are. -/
theorem argCount (h : Registers t items t') (hinfo : t g = some info) :
    ∃ info', t' g = some info' ∧ info'.argCount = info.argCount := by
  induction h generalizing info with
  | nil t => exact ⟨info, hinfo, rfl⟩
  | @cons t t₁ t' item items hitem hrest ih =>
      obtain ⟨new, rfl, hnew⟩ := hitem.counts
      by_cases hg : g = item.name
      · subst hg
        rcases hnew with ⟨old, hold, hcount, -⟩ | ⟨hnone, -⟩
        · obtain ⟨info', hinfo', hcount'⟩ := ih (Function.update_self ..)
          refine ⟨info', hinfo', ?_⟩
          rw [hcount', hcount, Option.some.inj (hold.symm.trans hinfo)]
        · rw [hnone] at hinfo
          cases hinfo
      · exact ih ((Function.update_of_ne hg ..).trans hinfo)

/-- Argument counts are bounded by the size of the items. -/
theorem argCount_le (h : Registers t items t') {n : ℕ}
    (hle : ∀ g info, t g = some info → 2 * info.argCount ≤ n) :
    ∀ g info, t' g = some info → 2 * info.argCount ≤ n + itemsSize items := by
  induction h generalizing n with
  | nil t => exact hle
  | @cons t t₁ t' item items hitem hrest ih =>
      have hsize : itemsSize (item :: items) = item.size + itemsSize items := rfl
      rw [hsize, ← Nat.add_assoc]
      refine ih fun g info hinfo => ?_
      obtain ⟨new, rfl, hnew⟩ := hitem.counts
      by_cases hg : g = item.name
      · subst hg
        rw [Function.update_self] at hinfo
        obtain rfl := Option.some.inj hinfo
        rcases hnew with ⟨old, hold, hcount, -⟩ | ⟨-, hcount, -⟩
        · have hold' := hle _ old hold
          omega
        · have hparams := item.params_le_size
          omega
      · rw [Function.update_of_ne hg] at hinfo
        have hold := hle g info hinfo
        omega

/-- **The names of the table** are those of the items. -/
theorem isSome_iff (h : Registers t items t') :
    (t' g).isSome = true ↔ (t g).isSome = true ∨ ∃ item ∈ items, item.name = g := by
  induction h with
  | nil t => simp
  | @cons t t₁ t' item items hitem hrest ih =>
      obtain ⟨new, rfl, -⟩ := hitem.update
      rw [ih]
      by_cases hg : g = item.name
      · subst hg
        simp
      · simp [Function.update_of_ne hg, Ne.symm hg]

/-- Argument count and type of an entry are those of the first item of its name. -/
theorem origin (h : Registers t items t') (hinfo : t' g = some info) :
    (∃ old, t g = some old ∧ info.argCount = old.argCount ∧ info.retType = old.retType) ∨
      t g = none ∧ ∃ item, items.find? (fun item => item.name = g) = some item ∧
        info.argCount = item.params.names.length ∧ info.retType = item.ret := by
  induction h with
  | nil t => exact .inl ⟨info, hinfo, rfl, rfl⟩
  | @cons t t₁ t' item items hitem hrest ih =>
      obtain ⟨new, rfl, hnew⟩ := hitem.counts
      rcases ih hinfo with ⟨old, hold, hcount, hret⟩ | ⟨hnone, item', hfind, horigin⟩
      · by_cases hg : g = item.name
        · subst hg
          rw [Function.update_self] at hold
          obtain rfl := Option.some.inj hold
          rcases hnew with ⟨old', hold', hcount', hret'⟩ | ⟨hnone, hcount', hret'⟩
          · exact .inl ⟨old', hold', hcount.trans hcount', hret.trans hret'⟩
          · refine .inr ⟨hnone, item, ?_, hcount.trans hcount', hret.trans hret'⟩
            simp
        · rw [Function.update_of_ne hg] at hold
          exact .inl ⟨old, hold, hcount, hret⟩
      · -- the entry has not been made by the item in front
        have hg : g ≠ item.name := by
          rintro rfl
          rw [Function.update_self] at hnone
          cases hnone
        rw [Function.update_of_ne hg] at hnone
        refine .inr ⟨hnone, item', ?_, horigin⟩
        simpa [Ne.symm hg] using hfind

end Registers

/-- The table of an accepted program starts empty. -/
theorem Registers.prototype {items : List Item} {t' : FuncTable}
    (h : Registers (fun _ => none) items t') {g : String} {info : FuncInfo}
    (hinfo : t' g = some info) (hproto : info.prototyped = true) :
    ∃ p, .proto p ∈ items ∧ p.name = g ∧ info.Declared p.params.names :=
  h.declared (fun _ hx => hx) (fun _ _ h => by simp at h) g info hinfo hproto

/-! ## Definitions -/

/-- A definition in its place, with the tables around it. -/
structure DefinedAt (pre : List Item) (f : Func) (t₁ t₂ t : FuncTable) : Prop where
  before : Registers (fun _ => none) pre t₁
  item : f.Registers t₁ t₂
  entry : t f.name = t₂ f.name
  counts : ∀ g info, t₁ g = some info → ∃ info', t g = some info' ∧ info'.argCount = info.argCount

theorem Registers.at {pre post : List Item} {f : Func} {t : FuncTable}
    (h : Registers (fun _ => none) (pre ++ .func f :: post) t) :
    ∃ t₁ t₂, DefinedAt pre f t₁ t₂ t := by
  obtain ⟨t₁, hpre, hrest⟩ := h.split
  have hcounts := fun g info (hinfo : t₁ g = some info) => hrest.argCount hinfo
  cases hrest with
  | @cons _ t₂ _ _ _ hitem hpost =>
      obtain ⟨info, hinfo, -, hproto⟩ := hitem.update
      refine ⟨t₁, t₂, hpre, hitem, ?_, hcounts⟩
      have hentry : t₂ f.name = some info := by
        rw [hinfo]
        exact Function.update_self ..
      rw [(hpost.keeps hentry (hproto ⟨f, rfl⟩)).1, hentry]

/-- The entry `register_function` starts from, if the prototype repeats the parameters. -/
theorem DefinedAt.declared {pre : List Item} {f : Func} {t₁ t₂ t : FuncTable} {func : FuncInfo}
    (h : DefinedAt pre f t₁ t₂ t)
    (hrepeats : ∀ p, .proto p ∈ pre → p.name = f.name → p.params.names = f.params.names)
    (hopen : openFunction f.ret f.params.node (t₁ f.name) = some (.ok func)) :
    func.Declared f.params.names := by
  rcases (openFunction_eq hopen).2 with ⟨-, hargs⟩ | ⟨info, hinfo, hproto, rfl⟩
  · exact (registerArgs_declared rfl rfl (fun _ => rfl) hargs).2
  · obtain ⟨p, hp, hname, hdecl⟩ := h.before.prototype hinfo hproto
    rw [hrepeats p hp hname] at hdecl
    exact ⟨hdecl.argCount, hdecl.varCount, hdecl.nodup, hdecl.pos⟩

/-- **The frame of a definition** whose prototype repeats its parameters. -/
theorem DefinedAt.laid {pre : List Item} {f : Func} {t₁ t₂ t : FuncTable}
    (h : DefinedAt pre f t₁ t₂ t)
    (hrepeats : ∀ p, .proto p ∈ pre → p.name = f.name → p.params.names = f.params.names) :
    ∃ info, t f.name = some info ∧ info.Laid f.params.names f.body.defs f.maxCall ∧
      ∀ x ∈ f.body.vars, info.pos x ≠ none := by
  obtain ⟨-, -, func₀, func₁, func₂, hopen, hloc, hcalc, -, ht₂⟩ := h.item
  have hdecl := h.declared hrepeats hopen
  have hdecl' : ({ func₀ with maxCallSize := f.maxCall } : FuncInfo).Declared f.params.names :=
    ⟨hdecl.argCount, hdecl.varCount, hdecl.nodup, hdecl.pos⟩
  obtain ⟨-, hreg⟩ := registerLocVars_stmt hloc
  obtain ⟨-, hlaid⟩ := laid_of_registered hdecl' hreg hcalc
  refine ⟨func₂, ?_, hlaid, fun x hx => ?_⟩
  · rw [h.entry, ht₂, Function.update_self]
  · have hknown := hreg.vars x hx
    rw [hreg.enters.eq] at hknown
    rw [hlaid.pos, framePos]
    by_cases hdef : x ∈ f.body.defs
    · simp [hdef]
    · rw [if_neg hdef, hdecl'.pos] at hknown
      rw [if_neg hdef]
      by_cases hparam : x ∈ f.params.names
      · simp [hparam]
      · exact absurd (if_neg hparam) hknown

/-- The sizes in the entry of a definition. -/
theorem DefinedAt.sizes {pre : List Item} {f : Func} {t₁ t₂ t : FuncTable}
    (h : DefinedAt pre f t₁ t₂ t) :
    ∃ info, t f.name = some info ∧ info.varCount = f.body.defs.length ∧
      info.maxCallSize = f.maxCall := by
  obtain ⟨func, info, hopen, ht₂, hinfo⟩ := h.item.entry
  have hzero : func.varCount = 0 := by
    rcases (openFunction_eq hopen).2 with ⟨-, hargs⟩ | ⟨old, hold, hproto, rfl⟩
    · rw [(registerArgs_params hargs).1]
      rfl
    · obtain ⟨_, -, -, hdecl⟩ := h.before.prototype hold hproto
      exact hdecl.varCount
  refine ⟨info, ?_, ?_, ?_⟩
  · rw [h.entry, ht₂, Function.update_self]
  · rw [hinfo]
    simp [hzero]
  · rw [hinfo]

end Bispe
