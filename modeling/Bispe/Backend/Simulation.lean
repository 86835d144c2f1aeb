import Bispe.Backend.Fetch
import Bispe.Backend.Flat
import Bispe.Backend.Views

/-!
# The interpreter simulates the plain machine

A macro of the interpreter is answered by the same macro of the plain machine: the
results are equal, and the states stay related by `Sim`, which reads the two
stacks off the held lines and the encrypted memory.  Where the plain machine reads
an undefined word, the supply is chosen to be what the interpreter finds there.
The simulation says nothing more once a word outside the code segment is executed.

## Main definitions

* `Ctx.Apart` — the segments do not overlap.
* `programOf` — the program an interpreter memory holds.
* `Sim` — the relation between the two states.
* `Simulates` — the relation between two programs, closed under `bind`.
* `dispatch_simulates` — every instruction is simulated.
-/

namespace Bispe

open Effect Chaining

/-- The segments, each with the line before it, do not overlap. -/
structure Ctx.Apart (ctx : Ctx) : Prop where
  code_size : 16 ∣ ctx.codeSegSize
  code : ∀ a, ctx.codeSegBp - 16 ≤ a → a < ctx.codeSegBp + ctx.codeSegSize → ¬ ctx.InData a
  stack_call : ctx.stackSegBp + ctx.stackSegSize ≤ ctx.callSegBp - 16 ∨
    ctx.callSegBp + ctx.callSegSize ≤ ctx.stackSegBp - 16
  stack_print : ctx.stackSegBp + ctx.stackSegSize ≤ ctx.printSegBp ∨
    ctx.printSegBp + ctx.printSegSize ≤ ctx.stackSegBp - 16
  call_print : ctx.callSegBp + ctx.callSegSize ≤ ctx.printSegBp ∨
    ctx.printSegBp + ctx.printSegSize ≤ ctx.callSegBp - 16

/-- The program that the memory `m₀` holds, decrypted. -/
def programOf (b : Build) (ctx : Ctx) (m₀ : ℤ → Word) : Program where
  code w := if 4 * w < ctx.codeSegSize
    then wordAt (b.mode.decode (lines m₀)) (ctx.codeSegBp + 4 * w) else 0
  codeSize := ctx.codeSegSize
  stackWords := ctx.stackSegSize / 4
  callWords := ctx.callSegSize / 4
  argc := ctx.argc
  argv := ctx.argv

/-- The word an event executes. -/
def Event.word? : Event → Option Word
  | .fetch _ w => some w
  | _ => none

/-- The value an event prints. -/
def Event.value? : Event → Option Word
  | .print _ w => some w
  | _ => none

/-- The words that were executed, opcodes and operands. -/
def executed (log : List Event) : List Word := log.filterMap Event.word?

/-- The values that were printed. -/
def printed (log : List Event) : List Word := log.filterMap Event.value?

/-- What can be seen of a run: executed words, printed values and flags. -/
structure Observed (s : St) (t : Flat) : Prop where
  halt : s.haltFlag = t.haltFlag
  error : s.errorCode = t.errorCode
  trace : executed s.log = t.trace
  printed : printed s.log = t.printed

/-- The interpreter and the plain machine are at the same point of a run. -/
structure Sim (b : Build) (ctx : Ctx) (m₀ : ℤ → Word) (s : St) (t : Flat) : Prop where
  observed : Observed s t
  ip : s.curInstrPtr = ctx.codeSegBp + 4 * t.ip
  instr : 4 * t.ip < ctx.codeSegSize →
    s.rinstrLine = b.mode.decode (lines m₀) (s.curInstrPtr / 16)
  sp : s.curStackPtr = ctx.stackSegBp + 4 * t.sp
  stack : Holds b s.mem (s.curStackPtr / 16) s.rstackLine ctx.stackSegBp t.sp t.stack
  cp : s.curCallPtr = ctx.callSegBp + 4 * t.cp
  call : Holds b s.mem (s.curCallLine / 16) s.rcallLine ctx.callSegBp t.cp t.call

/-! ## Runs that take undefined words from the supply -/

/-- A result, with another rest of the supply. -/
def resupply {α : Type} (rest : List Word) :
    EStateM.Result FlatStop Flat α → EStateM.Result FlatStop Flat α
  | .ok a t => .ok a { t with supply := rest }
  | .error e t => .error e { t with supply := rest }

/-- With some supply `y` runs from `t` to `r`.  If the supply is needed at all, `y`
stops at an undefined word without it. -/
def Supplies {α : Type} (y : F α) (t : Flat) (r : EStateM.Result FlatStop Flat α) : Prop :=
  ∃ ws, (∀ rest, y { t with supply := ws ++ rest } = resupply rest r) ∧
    (ws ≠ [] → ∃ t', y { t with supply := [] } = .error .undef t')

namespace Supplies

variable {α β : Type} {t t' : Flat}

theorem of_run {y : F α} {r : EStateM.Result FlatStop Flat α}
    (h : ∀ rest, y { t with supply := rest } = resupply rest r) : Supplies y t r :=
  ⟨[], h, fun h => (h rfl).elim⟩

theorem congr {y z : F α} {r : EStateM.Result FlatStop Flat α}
    (h : ∀ rest, y { t with supply := rest } = z { t with supply := rest })
    (hz : Supplies z t r) : Supplies y t r := by
  obtain ⟨ws, hws, hundef⟩ := hz
  refine ⟨ws, fun rest => (h _).trans (hws rest), fun hne => ?_⟩
  obtain ⟨t', ht'⟩ := hundef hne
  exact ⟨t', (h _).trans ht'⟩

theorem bind {y : F α} {g : α → F β} {a : α} {r : EStateM.Result FlatStop Flat β}
    (hy : Supplies y t (.ok a t')) (hg : Supplies (g a) t' r) : Supplies (y >>= g) t r := by
  obtain ⟨ws, hws, hundef⟩ := hy
  obtain ⟨vs, hvs, hundef'⟩ := hg
  refine ⟨ws ++ vs, fun rest => ?_, fun hne => ?_⟩
  · rw [List.append_assoc, bind_ok (hws _)]
    exact hvs rest
  · by_cases hnil : ws = []
    · subst hnil
      obtain ⟨t'', ht''⟩ := hundef' (by simpa using hne)
      exact ⟨t'', (bind_ok (hws [])).trans ht''⟩
    · obtain ⟨t'', ht''⟩ := hundef hnil
      exact ⟨t'', bind_error ht''⟩

theorem bind_error {y : F α} {g : α → F β} {e : FlatStop} (hy : Supplies y t (.error e t')) :
    Supplies (y >>= g) t (.error e t') := by
  obtain ⟨ws, hws, hundef⟩ := hy
  refine ⟨ws, fun rest => Effect.bind_error (hws rest), fun hne => ?_⟩
  obtain ⟨t'', ht''⟩ := hundef hne
  exact ⟨t'', Effect.bind_error ht''⟩

/-- An undefined word can be read as anything. -/
theorem readCell {c : Option Word} {v : Word} (h : ∀ w, c = some w → v = w) :
    Supplies (Flat.readCell c) t (.ok v t) := by
  cases c with
  | none => exact ⟨[v], fun rest => rfl, fun _ => ⟨_, rfl⟩⟩
  | some w =>
      obtain rfl := h w rfl
      exact of_run fun rest => rfl

end Supplies

/-! ## Simulation of programs -/

section Simulates
variable (b : Build) (ctx : Ctx) (m₀ : ℤ → Word)

/-- A word outside the code segment was executed. -/
def Escaped (v : ℤ × List Event) : Prop := ∃ p w, .fetch p w ∈ v.2 ∧ ¬ ctx.InCode p

theorem escaped_invariant : CodeInvariant ctx (Escaped ctx) where
  fetch _ _ _ := fun ⟨q, v, hq, hout⟩ => ⟨q, v, List.mem_append_left _ hq, hout⟩
  advance _ _ := fun ⟨q, v, hq, hout⟩ => ⟨q, v, List.mem_append_left _ hq, hout⟩
  jump _ _ _ := fun ⟨q, v, hq, hout⟩ _ => ⟨q, v, hq, hout⟩

/-- The plain machine answers a run of the interpreter. -/
def Matches {α β : Type} (A : α → β → Prop) (y : F β) (t : Flat) :
    EStateM.Result Stop St α → Prop
  | .ok a s' => ∃ b' t', A a b' ∧ Sim b ctx m₀ s' t' ∧ Supplies y t (.ok b' t')
  | .error e s' => ∃ e' t', e = .error e' ∧ Observed s' t' ∧ Supplies y t (.error (.error e') t')

/-- Both sides leave the code segment. -/
def Escapes {α β : Type} (y : F β) (t : Flat) (r : EStateM.Result Stop St α) : Prop :=
  Ends (fun _ s' => Escaped ctx s'.codeView) (fun _ s' => Escaped ctx s'.codeView) r ∧
    ∃ t', Supplies y t (.error .outside t')

/-- Put a first part, answered by `z`, before a run. -/
theorem Matches.seq {b : Build} {ctx : Ctx} {m₀ : ℤ → Word} {α β γ : Type} {A : α → β → Prop}
    {z : F γ} {g : γ → F β} {c : γ} {t t' : Flat} {r : EStateM.Result Stop St α}
    (hz : Supplies z t (.ok c t')) (h : Matches b ctx m₀ A (g c) t' r) :
    Matches b ctx m₀ A (z >>= g) t r := by
  cases r with
  | ok a s' =>
      obtain ⟨b', u, hab, hsim, hsup⟩ := h
      exact ⟨b', u, hab, hsim, hz.bind hsup⟩
  | error e s' =>
      obtain ⟨e', u, he, hobs, hsup⟩ := h
      exact ⟨e', u, he, hobs, hz.bind hsup⟩

/-- The program `x` of the interpreter keeps its invariants, and is answered by `y`
from related states, unless it executes a word outside the code segment. -/
structure Simulates {α β : Type} (A : α → β → Prop) (x : M α) (y : F β) : Prop where
  keeps : ∀ s, Inside ctx m₀ s →
    Ends (fun a s' => Inside ctx m₀ s' ∧ ∃ b', A a b') (StopsWithin ctx m₀) (x s)
  escaped : ∀ s, Inside ctx m₀ s → Escaped ctx s.codeView →
    Ends (fun _ s' => Escaped ctx s'.codeView) (fun _ s' => Escaped ctx s'.codeView) (x s)
  run : ∀ s t, Inside ctx m₀ s → Sim b ctx m₀ s t →
    Matches b ctx m₀ A y t (x s) ∨ Escapes ctx y t (x s)

variable {b ctx m₀} {α β : Type}

/-- A macro that returns the same value on both sides. -/
theorem Simulates.of_eq {x : M α} {y : F α} (hkeep : Keeps (Inside ctx m₀) (StopsWithin ctx m₀) x)
    (hesc : Keeps (fun s => Escaped ctx s.codeView) (fun _ s => Escaped ctx s.codeView) x)
    (hrun : ∀ s t, Inside ctx m₀ s → Sim b ctx m₀ s t → Matches b ctx m₀ Eq y t (x s)) :
    Simulates b ctx m₀ Eq x y where
  keeps s hs := (hkeep s hs).mono (fun a _ h => ⟨h, a, rfl⟩) fun _ _ h => h
  escaped s _ he := hesc s he
  run s t hs hst := .inl (hrun s t hs hst)

theorem Simulates.pure {A : α → β → Prop} {a : α} {b' : β} (h : A a b') :
    Simulates b ctx m₀ A (pure a) (pure b') where
  keeps _ hs := ⟨hs, b', h⟩
  escaped _ _ he := he
  run _ t _ hst := .inl ⟨b', t, h, hst, .of_run fun _ => rfl⟩

theorem Simulates.bind {γ δ : Type} {A : α → β → Prop} {C : γ → δ → Prop} {x : M α} {y : F β}
    {f : α → M γ} {g : β → F δ} (hx : Simulates b ctx m₀ A x y)
    (hf : ∀ a b', A a b' → Simulates b ctx m₀ C (f a) (g b')) :
    Simulates b ctx m₀ C (x >>= f) (y >>= g) := by
  have hescaped (s : St) (hs : Inside ctx m₀ s)
      (he : Ends (fun _ s' => Escaped ctx s'.codeView)
        (fun _ s' => Escaped ctx s'.codeView) (x s)) :
      Ends (fun _ s' => Escaped ctx s'.codeView) (fun _ s' => Escaped ctx s'.codeView)
        ((x >>= f) s) := by
    have hk := hx.keeps s hs
    rw [run_bind]
    cases hxs : x s with
    | ok a s' =>
        rw [hxs] at he hk
        obtain ⟨hs', b', hab⟩ := hk
        exact (hf a b' hab).escaped s' hs' he
    | error e s' =>
        rw [hxs] at he
        exact he
  refine ⟨fun s hs => ?_, fun s hs he => hescaped s hs (hx.escaped s hs he), fun s t hs hst => ?_⟩
  · exact (hx.keeps s hs).bind fun a s' ⟨hs', b', hab⟩ => (hf a b' hab).keeps s' hs'
  · rcases hx.run s t hs hst with hm | he
    · have hk := hx.keeps s hs
      rw [run_bind]
      cases hxs : x s with
      | ok a s' =>
          rw [hxs] at hm hk
          obtain ⟨b', t', hab, hst', hsup⟩ := hm
          rcases (hf a b' hab).run s' t' hk.1 hst' with hm' | he'
          · exact .inl (Matches.seq hsup hm')
          · obtain ⟨he, t'', hout⟩ := he'
            exact .inr ⟨he, t'', hsup.bind hout⟩
      | error e s' =>
          rw [hxs] at hm
          obtain ⟨e', t', he, hobs, hsup⟩ := hm
          exact .inl ⟨e', t', he, hobs, hsup.bind_error⟩
    · obtain ⟨he, t', hout⟩ := he
      exact .inr ⟨hescaped s hs he, t', hout.bind_error⟩

end Simulates

/-- Simulation, as a relation that is closed under sequencing. -/
def MonadRel.simulation (b : Build) (ctx : Ctx) (m₀ : ℤ → Word) : MonadRel M F where
  rel A x y := Simulates b ctx m₀ A x y
  rel_pure h := Simulates.pure h
  rel_bind hx hf := Simulates.bind hx hf

end Bispe
