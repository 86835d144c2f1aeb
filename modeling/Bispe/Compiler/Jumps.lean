import Bispe.Compiler.Arithmetic
import Bispe.Compiler.Codebuf
import Bispe.Compiler.Generation

/-!
# Jumps

Where the jumps of a program lead.  The targets are patched when the size of the code
behind them is known; in the final list each of them is the start of an instruction of
the same function, or the word behind its last one.  The conditional jumps are those of
the conditions of the source, in their order, with the sense of a branch or a loop.

## Main definitions

* `Lands base code target` — the target is the start of an instruction of the code, or its end.
* `Guard`, `Stmt.guards`, `Func.guards` — the conditions of a statement and their jumps.
* `condJumps` — the conditional jumps in a code list.
* `Placed` — the code of a function in that of a program.
-/

namespace Bispe

open Effect Flat

def InstrType.isCondJump : InstrType → Bool
  | .jeq | .jne | .jl | .jle | .jg | .jge => true
  | _ => false

def InstrType.isJump (instr : InstrType) : Bool := instr = .jmp || instr.isCondJump

/-! ## Targets -/

/-- In code that starts at the word `base`, the target is the start of an instruction or
the word behind the last one. -/
def Lands (base : ℕ) (code : List CodeElem) (target : Word) : Prop :=
  ∃ l r, code = l ++ r ∧ target = BitVec.ofNat 32 (base + words l)

namespace Lands

variable {base base' : ℕ} {code pre l post : List CodeElem} {target : Word}

theorem first (base : ℕ) (code : List CodeElem) : Lands base code (BitVec.ofNat 32 base) :=
  ⟨[], code, rfl, rfl⟩

theorem last (base : ℕ) (code : List CodeElem) :
    Lands base code (BitVec.ofNat 32 (base + words code)) :=
  ⟨code, [], (List.append_nil _).symm, rfl⟩

/-- A place in a piece of the code. -/
theorem sub (h : Lands base' l target) (hcode : code = pre ++ l ++ post)
    (hbase : base' = base + words pre) : Lands base code target := by
  obtain ⟨l₁, l₂, rfl, rfl⟩ := h
  subst hcode hbase
  exact ⟨pre ++ l₁, l₂ ++ post, by simp, by simp [Nat.add_assoc]⟩

end Lands

/-- The jumps of a list land in code that starts at `base`. -/
def AllLand (base : ℕ) (code l : List CodeElem) : Prop :=
  ∀ elem ∈ l, elem.instr.isJump = true → Lands base code elem.arg

/-- Code without jumps. -/
def Straight (l : List CodeElem) : Prop := ∀ elem ∈ l, elem.instr.isJump = false

namespace AllLand

variable {base : ℕ} {code l r : List CodeElem}

theorem append (hl : AllLand base code l) (hr : AllLand base code r) :
    AllLand base code (l ++ r) := by
  intro elem helem
  rcases List.mem_append.mp helem with h | h
  · exact hl elem h
  · exact hr elem h

theorem single {instr : InstrType} {target : ℕ} (h : Lands base code (BitVec.ofNat 32 target)) :
    AllLand base code [elem instr target] := by
  intro x hx _
  rw [List.mem_singleton.mp hx]
  exact h

theorem straight (h : Straight l) : AllLand base code l := by
  intro elem helem hjump
  rw [h elem helem] at hjump
  cases hjump

theorem cons {instr : InstrType} {target : ℕ} (h : Lands base code (BitVec.ofNat 32 target))
    (hl : AllLand base code l) : AllLand base code (elem instr target :: l) :=
  (single h).append hl

/-- The jumps of a piece of the code that land in it. -/
theorem sub {base' : ℕ} {pre post : List CodeElem} (h : AllLand base' l l)
    (hcode : code = pre ++ l ++ post) (hbase : base' = base + words pre) : AllLand base code l :=
  fun elem helem hjump => (h elem helem hjump).sub hcode hbase

theorem left (h : AllLand base l l) : AllLand base (l ++ r) l :=
  h.sub (show l ++ r = [] ++ l ++ r from rfl) rfl

end AllLand

namespace Straight

variable {l r : List CodeElem}

theorem nil : Straight [] := nofun

theorem append (hl : Straight l) (hr : Straight r) : Straight (l ++ r) := by
  intro elem helem
  rcases List.mem_append.mp helem with h | h
  · exact hl elem h
  · exact hr elem h

theorem single {elem : CodeElem} (h : elem.instr.isJump = false) : Straight [elem] := by
  intro x hx
  rw [List.mem_singleton.mp hx]
  exact h

end Straight

section Emission
variable (t : FuncTable) (junk : Junk) (name : String)

theorem storeCode_straight (n : ℕ) : Straight (storeCode n) := by
  induction n with
  | zero => exact .nil
  | succ n ih => exact Straight.append (.single rfl) ih

theorem callCode_straight (g : String) : Straight (callCode t junk g) :=
  (storeCode_straight _).append (.single rfl)

mutual

theorem Expr.emit_straight : ∀ e : Expr, Straight (e.emit t junk name)
  | .unary u => u.emit_straight
  | .bin u op e => by
      refine (u.emit_straight.append e.emit_straight).append (.single ?_)
      cases op <;> rfl

theorem Unary.emit_straight : ∀ u : Unary, Straight (u.emit t junk name)
  | .call g args => args.emit_straight.append (callCode_straight t junk g)
  | .var _ => .single rfl
  | .lit _ => .single rfl
  | .paren e => e.emit_straight

theorem Args.emit_straight : ∀ args : Args, Straight (args.emit t junk name)
  | .empty => .nil
  | .last e => e.emit_straight
  | .cons e args => e.emit_straight.append args.emit_straight

end

theorem Cond.operands_straight (c : Cond) : Straight (c.operands t junk name) :=
  (c.left.emit_straight t junk name).append (c.right.emit_straight t junk name)

theorem exprEmit?_straight (e : Option Expr) : Straight (exprEmit? t junk name e) := by
  cases e with
  | none => exact .nil
  | some e => exact e.emit_straight t junk name

theorem Simple.emit_straight (s : Simple) : Straight (s.emit t junk name) := by
  cases s with
  | varDef _ _ init =>
      cases init with
      | none => exact .nil
      | some e => exact (e.emit_straight t junk name).append (.single rfl)
  | varAssign _ e => exact (e.emit_straight t junk name).append (.single rfl)

theorem epilogCode_straight : Straight (epilogCode t name) := by
  rw [epilogCode]
  split
  · exact .single rfl
  · exact .nil

theorem prologCode_straight : Straight (prologCode t name) := by
  rw [prologCode]
  split
  · exact .single rfl
  · exact .nil

variable {t junk name}

theorem Cond.allLand {c : Cond} {base : ℕ} {code : List CodeElem} {instr : InstrType} {target : ℕ}
    (h : Lands base code (BitVec.ofNat 32 target)) :
    AllLand base code (c.emit t junk name instr target) :=
  (AllLand.straight (c.operands_straight t junk name)).append (.single h)

@[simp] theorem Cond.words_emit (c : Cond) (instr : InstrType) (target : ℕ)
    (h : (instrInfo instr).hasArg = true) :
    words (c.emit t junk name instr target) = words (c.operands t junk name) + 2 := by
  simp [Cond.emit, elem, CodeElem.width, h]

theorem BoolOp.jmp_hasArg (op : BoolOp) : (instrInfo op.jmp).hasArg = true := by cases op <;> rfl

theorem BoolOp.neg_hasArg (op : BoolOp) : (instrInfo (negJmpInstr op.jmp)).hasArg = true := by
  cases op <;> rfl

@[simp] theorem Cond.words_neg (c : Cond) (target : ℕ) :
    words (c.emit t junk name (negJmpInstr c.op.jmp) target) =
      words (c.operands t junk name) + 2 := by simp [Cond.emit]

@[simp] theorem Cond.words_jmp (c : Cond) (target : ℕ) :
    words (c.emit t junk name c.op.jmp target) = words (c.operands t junk name) + 2 := by
  simp [Cond.emit]

/-- **The jumps of a statement** lead to the start of one of its instructions or to its
end. -/
theorem Stmt.allLand (st : Stmt) : ∀ base : ℕ,
    AllLand base (st.emit t junk name base) (st.emit t junk name base) := by
  induction st with
  | skip => exact fun _ => .straight .nil
  | seq st rest ih₁ ih₂ =>
      intro base
      rw [Stmt.emit]
      exact (ih₁ base).left.append ((ih₂ _).sub (List.append_nil _).symm rfl)
  | simple st => exact fun _ => .straight (st.emit_straight t junk name)
  | call g args =>
      exact fun _ => .straight ((args.emit_straight t junk name).append
        (callCode_straight t junk g))
  | print e => exact fun _ => .straight ((e.emit_straight t junk name).append (.single rfl))
  | ret e =>
      exact fun _ => .straight (((exprEmit?_straight t junk name e).append
        (epilogCode_straight t name)).append (.single rfl))
  | ifThen c st ih =>
      intro base
      rw [Stmt.emit]
      have hst := ih (base + words (c.operands t junk name) + 2)
      generalize st.emit t junk name (base + words (c.operands t junk name) + 2) = code at hst
      have hbase (target : ℕ) : base + words (c.operands t junk name) + 2 =
          base + words (c.emit t junk name (negJmpInstr c.op.jmp) target) := by
        simp [Nat.add_assoc]
      refine (Cond.allLand ?_).append (hst.sub (List.append_nil _).symm (hbase _))
      exact (Lands.last _ code).sub (List.append_nil _).symm (hbase _)
  | ifElse c s₁ s₂ ih₁ ih₂ =>
      intro base
      simp only [Stmt.emit]
      let start := base + words (c.operands t junk name) + 2
      have h₁ := ih₁ start
      generalize s₁.emit t junk name start = code₁ at h₁
      have h₂ := ih₂ (start + words code₁ + 2)
      generalize s₂.emit t junk name (start + words code₁ + 2) = code₂ at h₂
      let pre := c.emit t junk name (negJmpInstr c.op.jmp) (start + words code₁ + 2) ++ code₁
      have hpre : words pre = words (c.operands t junk name) + 2 + words code₁ := by simp [pre]
      let jmp := elem .jmp (start + words code₁ + 2 + words code₂)
      have hcode : pre ++ jmp :: code₂ = (pre ++ [jmp]) ++ code₂ ++ [] := by simp
      have hbase : start + words code₁ + 2 = base + words (pre ++ [jmp]) := by
        simp [hpre, jmp, start]
        omega
      refine ((Cond.allLand ?_).append (h₁.sub rfl ?_)).append (.cons ?_ ?_)
      · exact (Lands.first _ code₂).sub hcode hbase
      · simp [start, Nat.add_assoc]
      · exact (Lands.last _ code₂).sub hcode hbase
      · exact h₂.sub hcode hbase
  | whileLoop c body ih =>
      intro base
      simp only [Stmt.emit]
      have hbody := ih (base + 2)
      generalize body.emit t junk name (base + 2) = code at hbody
      let jmp := elem .jmp (base + 2 + words code)
      have hcode : jmp :: code ++ c.emit t junk name c.op.jmp (base + 2) =
          [jmp] ++ code ++ c.emit t junk name c.op.jmp (base + 2) := rfl
      have hbase : base + 2 = base + words [jmp] := rfl
      refine (AllLand.cons ?_ (hbody.sub hcode hbase)).append (Cond.allLand ?_)
      · exact (Lands.last _ code).sub hcode hbase
      · exact (Lands.first _ code).sub hcode hbase
  | forLoop init c x e body ih =>
      intro base
      simp only [Stmt.emit]
      let before := init.emit t junk name
      let start := base + words before + 2
      have hbody := ih start
      generalize body.emit t junk name start = code at hbody
      let update := (Simple.varAssign x e).emit t junk name
      let jmp := elem .jmp (start + words (code ++ update))
      have hcode : before ++ jmp :: (code ++ update) ++ c.emit t junk name c.op.jmp start =
          (before ++ [jmp]) ++ (code ++ update) ++ c.emit t junk name c.op.jmp start := by simp
      have hcode' : before ++ jmp :: (code ++ update) ++ c.emit t junk name c.op.jmp start =
          (before ++ [jmp]) ++ code ++ (update ++ c.emit t junk name c.op.jmp start) := by simp
      have hbase : start = base + words (before ++ [jmp]) := by
        simp [start, jmp, Nat.add_assoc]
      refine (AllLand.append (.straight (init.emit_straight t junk name))
        (.cons ?_ ((hbody.sub hcode' hbase).append ?_))).append (Cond.allLand ?_)
      · exact (Lands.last _ (code ++ update)).sub hcode hbase
      · exact .straight (Simple.emit_straight t junk name _)
      · exact (Lands.first _ code).sub hcode' hbase
  | doLoop body c ih =>
      intro base
      rw [Stmt.emit]
      refine (ih base).left.append (Cond.allLand ?_)
      exact .first base _

theorem Func.allLand (before : Bool) (base : ℕ) (f : Func) :
    AllLand base (f.emit t junk before base) (f.emit t junk before base) := by
  simp only [Func.emit]
  let prolog := prologCode t f.name
  have hbody := @Stmt.allLand t junk f.name f.body (base + words prolog)
  generalize f.body.emit t junk f.name (base + words prolog) = code at hbody
  have hprolog (l : List CodeElem) : AllLand base l prolog :=
    .straight (prologCode_straight t f.name)
  split
  · exact (hprolog _).append (hbody.sub (List.append_nil _).symm rfl)
  · let ending := epilogCode t f.name ++ [elem .ret 0]
    have hcode : prolog ++ code ++ epilogCode t f.name ++ [elem .ret 0] =
        prolog ++ code ++ ending := by simp [ending]
    rw [hcode]
    refine ((hprolog _).append (hbody.sub rfl rfl)).append (.straight ?_)
    exact (epilogCode_straight t f.name).append (.single rfl)

end Emission

/-! ## Conditions -/

/-- A condition in the code: where it starts, and where its jump leads.  The jump is taken
when the condition has the value `sense`. -/
structure Guard where
  cond : Cond
  sense : Bool
  start : ℕ
  target : ℕ

def Guard.instr (g : Guard) : InstrType :=
  if g.sense then g.cond.op.jmp else negJmpInstr g.cond.op.jmp

@[simp] theorem Guard.words_instr (g : Guard) (arg : ℕ) : (elem g.instr arg).width = 2 := by
  rw [Guard.instr]
  split <;> simp

theorem Guard.isCondJump (g : Guard) : g.instr.isCondJump = true := by
  obtain ⟨⟨_, op, _⟩, sense, _, _⟩ := g
  cases op <;> cases sense <;> rfl

/-- The conditional jumps in a list that starts at the word `base`, with their words. -/
def condJumps : ℕ → List CodeElem → List (ℕ × CodeElem)
  | _, [] => []
  | base, elem :: l =>
      if elem.instr.isCondJump then (base, elem) :: condJumps (base + elem.width) l
      else condJumps (base + elem.width) l

theorem condJumps_append (base : ℕ) (l r : List CodeElem) :
    condJumps base (l ++ r) = condJumps base l ++ condJumps (base + words l) r := by
  induction l generalizing base with
  | nil => rfl
  | cons elem l ih =>
      rw [List.cons_append, condJumps, condJumps, ih, words_cons, Nat.add_assoc]
      split <;> rfl

theorem exists_mem_condJumps {l : List CodeElem} {e : CodeElem} (he : e ∈ l)
    (hcond : e.instr.isCondJump = true) (base : ℕ) : ∃ n, (n, e) ∈ condJumps base l := by
  obtain ⟨l₁, l₂, rfl⟩ := List.append_of_mem he
  rw [condJumps_append, condJumps, if_pos hcond]
  exact ⟨_, List.mem_append_right _ List.mem_cons_self⟩

theorem condJumps_straight {l : List CodeElem} (h : Straight l) (base : ℕ) :
    condJumps base l = [] := by
  induction l generalizing base with
  | nil => rfl
  | cons elem l ih =>
      have helem := h elem List.mem_cons_self
      have hcond : elem.instr.isCondJump = false := by
        simp only [InstrType.isJump, Bool.or_eq_false_iff] at helem
        exact helem.2
      rw [condJumps, hcond]
      exact ih (fun x hx => h x (List.mem_cons_of_mem _ hx)) _

theorem condJumps_jmp (base target : ℕ) (l : List CodeElem) :
    condJumps base (elem .jmp target :: l) = condJumps (base + 2) l := rfl

section Guards
variable (t : FuncTable) (junk : Junk) (name : String)

/-- The code of a condition with its jump. -/
def Guard.emit (g : Guard) : List CodeElem := g.cond.emit t junk name g.instr g.target

/-- The word of the jump. -/
def Guard.pos (g : Guard) : ℕ := g.start + words (g.cond.operands t junk name)

def Guard.entry (g : Guard) : ℕ × CodeElem := (g.pos t junk name, elem g.instr g.target)

/-- The conditions of a statement that starts at the word `base`.  A branch leaves when its
condition is false, a loop goes back when its condition is true. -/
def Stmt.guards (base : ℕ) : Stmt → List Guard
  | .skip => []
  | .seq s rest => s.guards base ++ rest.guards (base + words (s.emit t junk name base))
  | .simple _ => []
  | .call _ _ => []
  | .print _ => []
  | .ret _ => []
  | .ifThen c s =>
      let start := base + words (c.operands t junk name) + 2
      ⟨c, false, base, start + words (s.emit t junk name start)⟩ :: s.guards start
  | .ifElse c s₁ s₂ =>
      let start := base + words (c.operands t junk name) + 2
      let middle := start + words (s₁.emit t junk name start) + 2
      ⟨c, false, base, middle⟩ :: (s₁.guards start ++ s₂.guards middle)
  | .whileLoop c body =>
      let start := base + 2
      body.guards start ++ [⟨c, true, start + words (body.emit t junk name start), start⟩]
  | .forLoop init c x e body =>
      let start := base + words (init.emit t junk name) + 2
      body.guards start ++ [⟨c, true, start + words (body.emit t junk name start ++
        (Simple.varAssign x e).emit t junk name), start⟩]
  | .doLoop body c =>
      body.guards base ++ [⟨c, true, base + words (body.emit t junk name base), base⟩]

variable {t junk name}

theorem condJumps_guard (g : Guard) :
    condJumps g.start (g.emit t junk name) = [g.entry t junk name] := by
  rw [Guard.emit, Cond.emit, condJumps_append, condJumps_straight (g.cond.operands_straight _ _ _),
    condJumps, elem, if_pos g.isCondJump]
  rfl

/-- **The conditional jumps of a statement** are those of its conditions. -/
theorem Stmt.condJumps_emit (st : Stmt) : ∀ base : ℕ,
    condJumps base (st.emit t junk name base) =
      (st.guards t junk name base).map (Guard.entry t junk name) := by
  induction st with
  | skip => exact fun _ => rfl
  | seq st rest ih₁ ih₂ =>
      intro base
      rw [Stmt.emit, Stmt.guards, condJumps_append, ih₁, ih₂, List.map_append]
  | simple st => exact fun _ => condJumps_straight (st.emit_straight t junk name) _
  | call g args =>
      exact fun _ => condJumps_straight
        ((args.emit_straight t junk name).append (callCode_straight t junk g)) _
  | print e =>
      intro base
      exact condJumps_straight ((e.emit_straight t junk name).append (.single rfl)) base
  | ret e =>
      exact fun _ => condJumps_straight (((exprEmit?_straight t junk name e).append
        (epilogCode_straight t name)).append (.single rfl)) _
  | ifThen c st ih =>
      intro base
      simp only [Stmt.emit, Stmt.guards]
      rw [condJumps_append, Cond.words_neg, ← Nat.add_assoc, ih, List.map_cons]
      exact congrArg (· ++ _) (condJumps_guard ⟨c, false, base, _⟩)
  | ifElse c s₁ s₂ ih₁ ih₂ =>
      intro base
      simp only [Stmt.emit, Stmt.guards]
      rw [List.append_assoc, condJumps_append, Cond.words_neg, ← Nat.add_assoc, condJumps_append,
        ih₁, condJumps_jmp, ih₂, List.map_cons, List.map_append]
      exact congrArg (· ++ _) (condJumps_guard ⟨c, false, base, _⟩)
  | whileLoop c body ih =>
      intro base
      simp only [Stmt.emit, Stmt.guards]
      rw [List.cons_append, condJumps_jmp, condJumps_append, ih, List.map_append]
      exact congrArg (_ ++ ·) (condJumps_guard ⟨c, true, _, base + 2⟩)
  | forLoop init c x e body ih =>
      intro base
      simp only [Stmt.emit, Stmt.guards]
      let start := base + words (init.emit t junk name) + 2
      let update := (Simple.varAssign x e).emit t junk name
      have hupdate (n : ℕ) : condJumps n update = [] :=
        condJumps_straight (Simple.emit_straight t junk name _) n
      rw [List.append_assoc, condJumps_append, condJumps_straight (init.emit_straight t junk name),
        List.nil_append, List.cons_append, condJumps_jmp, condJumps_append, condJumps_append, ih,
        hupdate, List.append_nil, List.map_append]
      exact congrArg (_ ++ ·) (condJumps_guard ⟨c, true, _, start⟩)
  | doLoop body c ih =>
      intro base
      rw [Stmt.emit, Stmt.guards, condJumps_append, ih, List.map_append]
      exact congrArg (_ ++ ·) (condJumps_guard ⟨c, true, _, base⟩)

/-- In code that starts at the word `base`, a condition has its code where it is listed;
a branch goes forward and a loop goes back. -/
structure Guard.Sits (t : FuncTable) (junk : Junk) (name : String) (base : ℕ)
    (code : List CodeElem) (g : Guard) : Prop where
  place : ∃ l r, code = l ++ g.emit t junk name ++ r ∧ g.start = base + words l
  inside : base ≤ g.target ∧ g.target ≤ base + words code
  forward : g.sense = false → g.pos t junk name + 2 ≤ g.target
  back : g.sense = true → g.target ≤ g.start

/-- All of these conditions sit in the code. -/
def AllSit (t : FuncTable) (junk : Junk) (name : String) (base : ℕ) (code : List CodeElem)
    (guards : List Guard) : Prop := ∀ g ∈ guards, g.Sits t junk name base code

namespace AllSit

variable {base : ℕ} {code pre l post : List CodeElem} {gs gs' : List Guard}

theorem nil : AllSit t junk name base code [] := nofun

theorem cons {g : Guard} (h : g.Sits t junk name base code) (hs : AllSit t junk name base code gs) :
    AllSit t junk name base code (g :: gs) := by
  intro g' hg'
  rcases List.mem_cons.mp hg' with rfl | hg'
  · exact h
  · exact hs g' hg'

theorem append (h : AllSit t junk name base code gs) (h' : AllSit t junk name base code gs') :
    AllSit t junk name base code (gs ++ gs') := by
  intro g hg
  rcases List.mem_append.mp hg with hg | hg
  · exact h g hg
  · exact h' g hg

/-- The conditions of a piece of the code. -/
theorem sub {base' : ℕ} (h : AllSit t junk name base' l gs) (hcode : code = pre ++ l ++ post)
    (hbase : base' = base + words pre) : AllSit t junk name base code gs := by
  intro g hg
  obtain ⟨⟨l₁, l₂, rfl, hstart⟩, hinside, hforward, hback⟩ := h g hg
  subst hcode hbase
  simp only [words_append] at hinside
  refine ⟨⟨pre ++ l₁, l₂ ++ post, by simp, by simp [hstart, Nat.add_assoc]⟩, ?_, hforward, hback⟩
  simp only [words_append]
  omega

theorem left {r : List CodeElem} (h : AllSit t junk name base l gs) :
    AllSit t junk name base (l ++ r) gs :=
  h.sub (show l ++ r = [] ++ l ++ r from rfl) rfl

end AllSit

/-- **The conditions of a statement** sit in its code. -/
theorem Stmt.allSit (st : Stmt) : ∀ base : ℕ,
    AllSit t junk name base (st.emit t junk name base) (st.guards t junk name base) := by
  induction st with
  | skip => exact fun _ => .nil
  | seq st rest ih₁ ih₂ =>
      intro base
      rw [Stmt.emit, Stmt.guards]
      exact (ih₁ base).left.append ((ih₂ _).sub (List.append_nil _).symm rfl)
  | simple st => exact fun _ => .nil
  | call g args => exact fun _ => .nil
  | print e => exact fun _ => .nil
  | ret e => exact fun _ => .nil
  | ifThen c st ih =>
      intro base
      simp only [Stmt.emit, Stmt.guards]
      refine .cons ⟨⟨[], _, rfl, rfl⟩, ?_, ?_, by simp⟩
        ((ih _).sub (List.append_nil _).symm (by simp [Nat.add_assoc]))
      · simp only [words_append, Cond.words_neg]
        omega
      · exact fun _ => Nat.le_add_right _ _
  | ifElse c s₁ s₂ ih₁ ih₂ =>
      intro base
      simp only [Stmt.emit, Stmt.guards]
      let start := base + words (c.operands t junk name) + 2
      generalize hcode₁ : s₁.emit t junk name start = code₁
      let middle := start + words code₁ + 2
      let jmp := elem .jmp (middle + words (s₂.emit t junk name middle))
      let pre := c.emit t junk name (negJmpInstr c.op.jmp) middle
      have h₁ := hcode₁ ▸ ih₁ start
      have hcode : pre ++ code₁ ++ jmp :: s₂.emit t junk name middle =
          (pre ++ code₁ ++ [jmp]) ++ s₂.emit t junk name middle ++ [] := by simp
      refine .cons ⟨⟨[], code₁ ++ jmp :: s₂.emit t junk name middle, ?_, rfl⟩, ?_, ?_, by simp⟩
        ((h₁.sub rfl ?_).append ((ih₂ middle).sub hcode ?_))
      · exact List.append_assoc ..
      · simp only [words_append, words_cons, Cond.words_neg, jmp_width]
        omega
      · exact fun _ => (Nat.le_add_right _ _).trans (Nat.le_add_right _ _)
      · simp [start, Nat.add_assoc]
      · simp [middle, start, pre, jmp]
        omega
  | whileLoop c body ih =>
      intro base
      simp only [Stmt.emit, Stmt.guards]
      generalize hcode : body.emit t junk name (base + 2) = code
      let jmp := elem .jmp (base + 2 + words code)
      have hpiece : jmp :: code ++ c.emit t junk name c.op.jmp (base + 2) =
          [jmp] ++ code ++ c.emit t junk name c.op.jmp (base + 2) := rfl
      refine .append ((hcode ▸ ih (base + 2)).sub hpiece rfl) (.cons ⟨?_, ?_, by simp, ?_⟩ .nil)
      · exact ⟨jmp :: code, [], (List.append_nil _).symm, by simp [jmp, Nat.add_assoc]⟩
      · simp only [words_append, words_cons, jmp_width]
        omega
      · exact fun _ => Nat.le_add_right _ _
  | forLoop init c x e body ih =>
      intro base
      simp only [Stmt.emit, Stmt.guards]
      let before := init.emit t junk name
      let start := base + words before + 2
      generalize hcode : body.emit t junk name start = code
      let update := (Simple.varAssign x e).emit t junk name
      let jmp := elem .jmp (start + words (code ++ update))
      have hpiece : before ++ jmp :: (code ++ update) ++ c.emit t junk name c.op.jmp start =
          (before ++ [jmp]) ++ code ++ (update ++ c.emit t junk name c.op.jmp start) := by simp
      refine .append ((hcode ▸ ih start).sub hpiece ?_) (.cons ⟨?_, ?_, by simp, ?_⟩ .nil)
      · refine ⟨before ++ jmp :: (code ++ update), [], (List.append_nil _).symm, ?_⟩
        simp [jmp, before, update, Nat.add_assoc]
      · simp only [words_append, words_cons, jmp_width]
        omega
      · exact fun _ => Nat.le_add_right _ _
      · simp [start, jmp, Nat.add_assoc]
  | doLoop body c ih =>
      intro base
      rw [Stmt.emit, Stmt.guards]
      refine (ih base).left.append (.cons ⟨⟨_, [], (List.append_nil _).symm, rfl⟩, ?_, by simp, ?_⟩
        .nil)
      · exact ⟨le_rfl, Nat.le_add_right _ _⟩
      · exact fun _ => Nat.le_add_right _ _

/-- The conditions of a function that starts at the word `base`. -/
def Func.guards (t : FuncTable) (junk : Junk) (base : ℕ) (f : Func) : List Guard :=
  f.body.guards t junk f.name (base + words (prologCode t f.name))

/-- **The conditional jumps of a function** are those of its conditions. -/
theorem Func.condJumps_emit (before : Bool) (base : ℕ) (f : Func) :
    condJumps base (f.emit t junk before base) =
      (f.guards t junk base).map (Guard.entry t junk f.name) := by
  have hprolog := condJumps_straight (prologCode_straight t f.name) base
  have hending (n : ℕ) : condJumps n (epilogCode t f.name ++ [elem .ret 0]) = [] :=
    condJumps_straight ((epilogCode_straight t f.name).append (.single rfl)) n
  simp only [Func.emit]
  split
  · rw [condJumps_append, hprolog, Stmt.condJumps_emit]
    rfl
  · rw [List.append_assoc, condJumps_append, condJumps_append, hprolog, hending,
      Stmt.condJumps_emit, List.append_nil]
    rfl

theorem Func.allSit (before : Bool) (base : ℕ) (f : Func) :
    AllSit t junk f.name base (f.emit t junk before base) (f.guards t junk base) := by
  have hbody := @Stmt.allSit t junk f.name f.body (base + words (prologCode t f.name))
  simp only [Func.emit]
  split
  · exact hbody.sub (List.append_nil _).symm rfl
  · exact hbody.sub (List.append_assoc ..) rfl

end Guards

/-! ## Functions -/

/-- The code of a function follows `pre` in that of a program. -/
structure Placed (junk : Junk) (items : List Item) (code : List CodeElem) (f : Func)
    (pre fn : List CodeElem) (t : FuncTable) : Prop where
  mem : .func f ∈ items
  emit : ∃ before, fn = f.emit t junk before (words pre)
  code : ∃ post, code = pre ++ fn ++ post

/-- **Each instruction** of the functions of a program is in the code of one of them. -/
theorem emitItems_placed {junk : Junk} (items : List Item) :
    ∀ {pre : List CodeElem} {before : Bool} {t : FuncTable} {i : ℕ} {e : CodeElem},
    (emitItems junk items (words pre) before t).1[i]? = some e →
      ∃ f pre' fn t', Placed junk items (pre ++ (emitItems junk items (words pre) before t).1) f
        pre' fn t' ∧ pre'.length ≤ pre.length + i ∧ pre.length + i < pre'.length + fn.length := by
  induction items with
  | nil => exact fun h => nomatch h
  | cons item items ih =>
      intro pre before t i e h
      cases item with
      | proto p =>
          obtain ⟨f, pre', fn, t', ⟨hmem, hemit, hcode⟩, hle, hlt⟩ := ih h
          exact ⟨f, pre', fn, t', ⟨List.mem_cons_of_mem _ hmem, hemit, hcode⟩, hle, hlt⟩
      | func f =>
          simp only [emitItems] at h ⊢
          let t' := setAddr t f.name (words pre)
          generalize hfn : f.emit (setAddr t f.name (words pre)) junk before (words pre) = fn at h
          by_cases hi : i < fn.length
          · exact ⟨f, pre, fn, t', ⟨List.mem_cons_self, ⟨before, hfn.symm⟩,
              ⟨_, (List.append_assoc ..).symm⟩⟩, by omega, by omega⟩
          · rw [List.getElem?_append_right (by omega)] at h
            have hwords : words pre + words fn = words (pre ++ fn) := (words_append ..).symm
            rw [hwords] at h ⊢
            obtain ⟨g, pre', gn, t'', ⟨hmem, hemit, hcode⟩, hle, hlt⟩ := ih h
            rw [List.length_append] at hle hlt
            rw [List.append_assoc] at hcode
            exact ⟨g, pre', gn, t'', ⟨List.mem_cons_of_mem _ hmem, hemit, hcode⟩, by omega,
              by omega⟩

/-- **Each function** of a program has its code there. -/
theorem emitItems_places {junk : Junk} {f : Func} (items : List Item) (hf : .func f ∈ items) :
    ∀ (pre : List CodeElem) (before : Bool) (t : FuncTable), ∃ pre' fn t',
      Placed junk items (pre ++ (emitItems junk items (words pre) before t).1) f pre' fn t' := by
  induction items with
  | nil => cases hf
  | cons item items ih =>
      intro pre before t
      cases item with
      | proto p =>
          have htail : .func f ∈ items := by simpa using hf
          obtain ⟨pre', fn, t', hplaced⟩ := ih htail pre before t
          exact ⟨pre', fn, t', hf, hplaced.emit, hplaced.code⟩
      | func g =>
          simp only [emitItems]
          generalize hgn : g.emit (setAddr t g.name (words pre)) junk before (words pre) = gn
          rcases List.mem_cons.mp hf with heq | htail
          · obtain rfl : f = g := Item.func.inj heq
            exact ⟨pre, gn, _, hf, ⟨before, hgn.symm⟩, _, (List.append_assoc ..).symm⟩
          · rw [← words_append, ← List.append_assoc]
            obtain ⟨pre', fn, t', hplaced⟩ := ih htail (pre ++ gn) _ _
            exact ⟨pre', fn, t', hf, hplaced.emit, hplaced.code⟩

theorem Placed.land {junk : Junk} {items : List Item} {code pre fn : List CodeElem} {f : Func}
    {t : FuncTable} (h : Placed junk items code f pre fn t) : AllLand (words pre) fn fn := by
  obtain ⟨before, rfl⟩ := h.emit
  exact f.allLand before (words pre)

theorem Placed.sit {junk : Junk} {items : List Item} {code pre fn : List CodeElem} {f : Func}
    {t : FuncTable} (h : Placed junk items code f pre fn t) :
    AllSit t junk f.name (words pre) fn (f.guards t junk (words pre)) := by
  obtain ⟨before, rfl⟩ := h.emit
  exact f.allSit before (words pre)

/-! ## Runs -/

def BoolOp.negate : BoolOp → BoolOp
  | .eqeq => .neq
  | .neq => .eqeq
  | .gt => .le
  | .lt => .ge
  | .ge => .lt
  | .le => .gt

theorem BoolOp.jmp_negate (op : BoolOp) : op.negate.jmp = negJmpInstr op.jmp := by
  cases op <;> rfl

theorem BoolOp.holds_negate (op : BoolOp) (a b : ℤ) : op.negate.holds a b = !op.holds a b := by
  rw [Bool.eq_iff_iff]
  cases op <;> simp [BoolOp.negate, BoolOp.holds]

/-- **The jump of a condition** is taken when the condition has the value `sense`. -/
theorem does_guard {p : Program} {m : Flat} {g : Guard} {a b : Word}
    (hop : p.At m.ip (instrInfo g.instr).opcode) (harg : p.At (m.ip + 1) (BitVec.ofNat 32 g.target))
    (htarget : 4 * g.target < p.codeSize) (hlt : g.target < 2 ^ 32) (hab : Operands m a b)
    (hsp : 2 ≤ m.sp) :
    Does p m { m with
      ip := if g.cond.op.holds a.toInt b.toInt = g.sense then g.target else m.ip + 2
      sp := m.sp - 1 - 1 } := by
  have hnat : (BitVec.ofNat 32 g.target).toNat = g.target := by
    rw [BitVec.toNat_ofNat, Nat.mod_eq_of_lt hlt]
  have hbound : 4 * (BitVec.ofNat 32 g.target).toNat < p.codeSize := hnat.symm ▸ htarget
  obtain ⟨c, sense, start, target⟩ := g
  cases sense with
  | true =>
      have hrun := @does_boolop p m c.op a b _ hop harg hbound hab hsp
      rwa [hnat] at hrun
  | false =>
      have hinstr : Guard.instr ⟨c, false, start, target⟩ = c.op.negate.jmp :=
        c.op.jmp_negate.symm
      rw [hinstr] at hop
      have hrun := @does_boolop p m c.op.negate a b _ hop harg hbound hab hsp
      rw [hnat, c.op.holds_negate] at hrun
      simpa using hrun

theorem Program.Holds.piece {p : Program} {i : ℕ} {l m r : List CodeElem}
    (h : p.Holds i (l ++ m ++ r)) : p.Holds (i + words l) m := h.left.right

theorem entryCode_straight (n : ℕ) (addr : Word) : Straight (entryCode n addr) := by
  have hargs (i n : ℕ) : Straight (argloadCode i n) := by
    induction n generalizing i with
    | zero => exact .nil
    | succ n ih => exact Straight.append (.single rfl) (ih _)
  refine .append (.append ?_ (hargs 0 n)) (.append (.single rfl) (.single rfl))
  split
  · exact .single rfl
  · exact .nil

/-- **Each jump** of a program is in the code of a function. -/
theorem generateCode_placed {t : FuncTable} {junk : Junk} {items : List Item}
    {code : List CodeElem} {s : GState}
    (h : generateCode junk t (headNode items) = .ok (some code) s) {i : ℕ} {e : CodeElem}
    (he : code[i]? = some e) (hjump : e.instr.isJump = true) :
    ∃ f pre fn t, Placed junk items code f pre fn t ∧ pre.length ≤ i ∧
      i < pre.length + fn.length := by
  obtain ⟨main, -, -, hcode, -⟩ := generateCode_eq_some h
  have hentry := entryCode_straight main.argCount (callAddr s.funcTable junk "main")
  have hwords := words_entryCode main.argCount (callAddr s.funcTable junk "main")
  generalize entryCode main.argCount (callAddr s.funcTable junk "main") = entry
    at hcode hentry hwords
  by_cases hi : i < entry.length
  · rw [hcode, List.getElem?_append_left hi] at he
    have hstraight := hentry e (List.mem_of_getElem? he)
    rw [hjump] at hstraight
    cases hstraight
  · rw [hcode, List.getElem?_append_right (by omega), programCode, ← hwords] at he
    obtain ⟨f, pre, fn, t', hplaced, hle, hlt⟩ := emitItems_placed items he
    rw [hwords] at hplaced
    refine ⟨f, pre, fn, t', hcode ▸ hplaced, ?_, ?_⟩ <;> omega

/-- **Each function** of a program has its code in that of the program. -/
theorem generateCode_places {t : FuncTable} {junk : Junk} {items : List Item}
    {code : List CodeElem} {s : GState}
    (h : generateCode junk t (headNode items) = .ok (some code) s) {f : Func}
    (hf : .func f ∈ items) : ∃ pre fn t, Placed junk items code f pre fn t := by
  obtain ⟨main, -, -, hcode, -⟩ := generateCode_eq_some h
  have hwords := words_entryCode main.argCount (callAddr s.funcTable junk "main")
  rw [hcode, programCode, ← hwords]
  exact emitItems_places items hf _ _ _

/-- **Jumps are well placed.**  The target of every jump of a program is the word, in the
code of the function it is in, of the start of an instruction or behind the last one; the
buffer has an opcode there.  Every function of the source has its code in the program.  The
conditional jumps of a function are those of the conditions of its source in their order,
each behind its operands, and a machine with the operands on its stack takes it exactly when
the condition is false for a branch, which goes forward, and when it is true for a loop,
which goes back. -/
theorem jumps_well_placed {junk : Junk} {fuel : ℕ} {first : List Token} {code : List CodeElem}
    (h : compile junk fuel first = some code) :
    ∃ items s, parseTokenlist fuel first = .ok (headNode items) s ∧
      (∀ i e, code[i]? = some e → e.instr.isJump = true →
        ∃ f pre fn post t l r, Placed junk items code f pre fn t ∧ code = pre ++ fn ++ post ∧
          pre.length ≤ i ∧ i < pre.length + fn.length ∧ fn = l ++ r ∧
          e.arg.toNat = words (pre ++ l) ∧
          ∀ malloced iv padding unencrypted buf,
            buildCodebuf malloced iv padding code unencrypted = .ok buf →
            buf[codeStart unencrypted + e.arg.toNat]? =
              some (instrInfo (nextInstr (r ++ post))).opcode) ∧
      (∀ f, .func f ∈ items → ∃ pre fn t, Placed junk items code f pre fn t) ∧
      ∀ f pre fn t, Placed junk items code f pre fn t →
        condJumps (words pre) fn =
          (f.guards t junk (words pre)).map (Guard.entry t junk f.name) ∧
        ∀ g ∈ f.guards t junk (words pre), g.Sits t junk f.name (words pre) fn ∧
          ∀ (p : Program) (m : Flat) (a b : Word), p.Holds 0 (code ++ [elem .finish 0]) →
            m.ip = g.pos t junk f.name → Operands m a b → 2 ≤ m.sp →
            Does p m { m with
              ip := if g.cond.op.holds a.toInt b.toInt = g.sense then g.target else m.ip + 2
              sp := m.sp - 1 - 1 } := by
  obtain ⟨items, s, s', hparse, -, -, hgen⟩ := compile_eq_some h
  obtain ⟨main, -, -, -, hlt⟩ := generateCode_eq_some hgen
  refine ⟨items, s, hparse, ?_, fun f hf => generateCode_places hgen hf, ?_⟩
  · intro i e he hjump
    obtain ⟨f, pre, fn, t, hplaced, hle, hi⟩ := generateCode_placed hgen he hjump
    obtain ⟨post, hcode⟩ := hplaced.code
    have hmem : e ∈ fn := by
      rw [hcode, List.append_assoc, List.getElem?_append_right hle,
        List.getElem?_append_left (by omega)] at he
      exact List.mem_of_getElem? he
    obtain ⟨l, r, rfl, harg⟩ := hplaced.land e hmem hjump
    have hsplit : code = (pre ++ l) ++ (r ++ post) := by
      rw [hcode]
      simp
    have htarget : e.arg.toNat = words (pre ++ l) := by
      have hsize : words code = words (pre ++ l) + words (r ++ post) := by
        rw [hsplit, words_append]
      rw [harg, ← words_append, BitVec.toNat_ofNat]
      exact Nat.mod_eq_of_lt (by omega)
    refine ⟨f, pre, l ++ r, post, t, l, r, hplaced, hcode, hle, hi, rfl, htarget, ?_⟩
    intro malloced iv padding unencrypted buf hbuf
    obtain ⟨ivw, padding', hlength, rfl⟩ := buildCodebuf_eq_ok hbuf
    rw [htarget, ← hlength]
    have hstart := bufferWords_start ivw padding' (pre ++ l) (r ++ post)
    rwa [← hsplit] at hstart
  · intro f pre fn t hplaced
    obtain ⟨post, hcode⟩ := hplaced.code
    refine ⟨?_, fun g hg => ?_⟩
    · obtain ⟨before, rfl⟩ := hplaced.emit
      exact f.condJumps_emit before (words pre)
    · have hsits := hplaced.sit g hg
      refine ⟨hsits, fun p m a b hholds hip hab hsp => ?_⟩
      obtain ⟨l, r, hfn, hstart⟩ := hsits.place
      have hsize : words code = words pre + words fn + words post := by
        rw [hcode, words_append, words_append]
      have hinside := hsits.inside
      have hfinish := hholds.right.opcode.lt
      rw [hcode, hfn] at hholds
      have hcond : p.Holds g.start (g.emit t junk f.name) := by
        have hpiece := hholds.left.left.right.piece
        rwa [Nat.zero_add, ← hstart] at hpiece
      have hat : p.Holds m.ip [elem g.instr g.target] := by
        rw [hip]
        exact hcond.right
      have hasArg : (instrInfo g.instr).hasArg = true := by
        rw [Guard.instr]
        split
        · exact g.cond.op.jmp_hasArg
        · exact g.cond.op.neg_hasArg
      exact does_guard hat.opcode (hat.operand hasArg) (by omega) (by omega) hab hsp

/-- `void main(void) { while (1 < 2) { print 3; } }` -/
def printForever : List Token :=
  [⟨.tokVoid, "void"⟩, ⟨.tokIdentifier, "main"⟩, ⟨.tokOpenpa, "("⟩, ⟨.tokVoid, "void"⟩,
   ⟨.tokClosepa, ")"⟩, ⟨.tokOpenbr, "\x7b"⟩, ⟨.tokWhile, "while"⟩, ⟨.tokOpenpa, "("⟩,
   ⟨.tokIntliteral, "1"⟩, ⟨.tokLt, "<"⟩, ⟨.tokIntliteral, "2"⟩, ⟨.tokClosepa, ")"⟩,
   ⟨.tokOpenbr, "\x7b"⟩, ⟨.tokPrint, "print"⟩, ⟨.tokIntliteral, "3"⟩, ⟨.tokSemicl, ";"⟩,
   ⟨.tokClosebr, "\x7d"⟩, ⟨.tokClosebr, "\x7d"⟩, ⟨.tokEof, ""⟩]

def printForeverCode : List CodeElem :=
  [⟨.call, 3, some "main"⟩, elem .finish 0, elem .jmp 8, elem .push 3, elem .print 0,
   elem .push 1, elem .push 2, elem .jl 5, elem .ret 0]

/-- Every function of the program has its code in the list.  The jump back of the loop is in
one of them, leads to the start of `PUSH 3` and is the jump of a condition of its source. -/
theorem jumps_well_placed_small : ∃ items f pre fn t l r,
    (∀ g, .func g ∈ items →
      ∃ pre fn t, Placed (fun _ => 0) items printForeverCode g pre fn t) ∧
    Placed (fun _ => 0) items printForeverCode f pre fn t ∧ pre.length ≤ 7 ∧
      7 < pre.length + fn.length ∧ fn = l ++ r ∧ words (pre ++ l) = 5 ∧
      ∃ g ∈ f.guards t (fun _ => 0) (words pre), elem g.instr g.target = elem .jl 5 ∧
        g.Sits t (fun _ => 0) f.name (words pre) fn := by
  have hcompile : compile (fun _ => 0) 60 printForever = some printForeverCode := by
    decide +kernel
  obtain ⟨items, _, -, hjumps, hplaces, hguards⟩ := jumps_well_placed hcompile
  obtain ⟨f, pre, fn, post, t, l, r, hplaced, hcode, hle, hlt, hsplit, htarget, -⟩ :=
    hjumps 7 (elem .jl 5) rfl rfl
  obtain ⟨hconds, hsits⟩ := hguards f pre fn t hplaced
  have hmem : elem .jl 5 ∈ fn := by
    have hjump : printForeverCode[7]? = some (elem .jl 5) := rfl
    rw [hcode, List.append_assoc, List.getElem?_append_right hle,
      List.getElem?_append_left (by omega)] at hjump
    exact List.mem_of_getElem? hjump
  obtain ⟨n, hn⟩ := exists_mem_condJumps hmem rfl (words pre)
  rw [hconds] at hn
  obtain ⟨g, hg, hentry⟩ := List.mem_map.mp hn
  exact ⟨items, f, pre, fn, t, l, r, hplaces, hplaced, hle, hlt, hsplit, htarget.symm, g, hg,
    (Prod.ext_iff.mp hentry).2, (hsits g hg).1⟩

end Bispe
