import Bispe.Backend.Activations
import Mathlib.Order.Filter.AtTopBot.Basic

/-!
# Stacks of different sizes

A program may be run with more code behind its own and with stacks of any size.  The machines
that run it differ only where one of them has no room for a word.  What almost all of them do is
the behaviour of a family; in the family of one machine a full stack ends the run, and in that
of all large machines there is always room.

## Main definitions

* `Program.Extends` — a program with the code and the arguments of another one.
* `Family` — machines that run the same program.
* `Family.single`, `Family.large` — one machine, and all machines with large stacks.
-/

namespace Bispe

open Flat

/-- `q` holds the code of `p` and has the same arguments. -/
structure Program.Extends (p q : Program) : Prop where
  word : ∀ {i w}, p.At i w → q.At i w
  argc : q.argc = p.argc
  argv : ∀ j < p.argc, q.argv j = p.argv j

namespace Program.Extends

variable {p q : Program}

theorem refl (p : Program) : p.Extends p := ⟨id, rfl, fun _ _ => rfl⟩

/-- What is inside the code segment of `p` is inside that of `q`. -/
theorem inside (h : p.Extends q) {i : ℕ} (hi : 4 * i < p.codeSize) : 4 * i < q.codeSize :=
  (h.word ⟨rfl, hi⟩).lt

end Program.Extends

/-- Almost all machines have more words than any number, or almost none has and is excused. -/
def Sized (members : Filter Program) (size : Program → ℕ) (excused : Prop) : Prop :=
  ∀ n, (∀ᶠ q in members, n < size q) ∨ (∀ᶠ q in members, size q ≤ n) ∧ excused

/-- Machines that run the program `base`, and the errors they may stop with. -/
structure Family where
  base : Program
  members : Filter Program
  excuse : Err → Prop
  carries : ∀ᶠ q in members, base.Extends q
  stack : Sized members Program.stackWords (excuse .stackOverflow)
  call : Sized members Program.callWords (excuse .callOverflow)

namespace Family

theorem sized_pure (p : Program) (size : Program → ℕ) {excused : Prop} (h : excused) :
    Sized (pure p) size excused := by
  intro n
  rw [Filter.eventually_pure, Filter.eventually_pure]
  exact (Nat.lt_or_ge n (size p)).imp_right fun hle => ⟨hle, h⟩

/-- One machine, which stops when a stack is full. -/
def single (p : Program) : Family where
  base := p
  members := pure p
  excuse := Overflow
  carries := Filter.eventually_pure.mpr (.refl p)
  stack := sized_pure p _ (.inl rfl)
  call := sized_pure p _ (.inr rfl)

/-- The machines that run `p`, as their stacks grow. -/
def growing (p : Program) : Filter Program :=
  .comap (fun q => (q.stackWords, q.callWords)) .atTop ⊓ .principal (Set.ofPred p.Extends)

theorem eventually_growing {p : Program} {Q : Program → Prop} :
    (∀ᶠ q in growing p, Q q) ↔ ∃ stackWords callWords, ∀ q, p.Extends q →
      stackWords ≤ q.stackWords → callWords ≤ q.callWords → Q q := by
  rw [growing, Filter.eventually_inf_principal, Filter.eventually_comap,
    Filter.eventually_atTop]
  constructor
  · rintro ⟨⟨m, n⟩, h⟩
    exact ⟨m, n, fun q hq hm hn => h _ ⟨hm, hn⟩ q rfl hq⟩
  · rintro ⟨m, n, h⟩
    refine ⟨(m, n), ?_⟩
    rintro _ ⟨hm, hn⟩ q rfl hq
    exact h q hq hm hn

/-- The machines with large stacks, which have no excuse. -/
def large (p : Program) : Family where
  base := p
  members := growing p
  excuse _ := False
  carries := eventually_growing.mpr ⟨0, 0, fun _ hq _ _ => hq⟩
  stack n := .inl (eventually_growing.mpr ⟨n + 1, 0, fun _ _ h _ => h⟩)
  call n := .inl (eventually_growing.mpr ⟨0, n + 1, fun _ _ _ h => h⟩)

/-- What almost all machines of the family do. -/
def machine (F : Family) : Tracking.Machine Flat Word Err :=
  .along Flat.machine Flat.printed F.members

variable (F : Family) {t t' : Flat}

/-- **What a family tracks** is tracked by almost all of its machines. -/
theorem tracks {α : Type} {k : ℕ} {x : Tracking.Eval Word Err α} {P : α → Flat → Prop}
    (h : F.machine.Tracks F.excuse k x t P) :
    ∀ᶠ q in F.members, (Flat.machine q).Tracks F.excuse k x t P :=
  h.eventually fun _ => rfl

/-- An instruction that needs no room. -/
theorem does (h : ∀ q, F.base.Extends q → Does q t t') : F.machine.runs 1 t t' :=
  F.carries.mono fun q hq => (h q hq).runs

/-- The program arguments are those of the base. -/
theorem argload {arg : Word} (hop : F.base.At t.ip 22) (harg : F.base.At (t.ip + 1) arg)
    (hargc : arg.toNat < F.base.argc) (hcp : depth arg ≤ t.cp) :
    F.machine.runs 1 t { t with
      ip := t.ip + 2
      call := Function.update t.call (t.cp - depth arg) (some (F.base.argv arg.toNat)) } := by
  refine F.does fun q hq => ?_
  rw [← hq.argv _ hargc]
  exact does_argload (hq.word hop) (hq.word harg) (hargc.trans_eq hq.argc.symm) hcp

/-- An instruction that needs room on a stack. -/
theorem does_or_fails {size : Program → ℕ} {e : Err} (hsize : Sized F.members size (F.excuse e))
    (n : ℕ) (hdoes : ∀ q, F.base.Extends q → n < size q → Does q t t')
    (hfails : ∀ q, F.base.Extends q → size q ≤ n → FailsWith q t e) :
    F.machine.runs 1 t t' ∨ F.machine.fails t e ∧ F.excuse e := by
  rcases hsize n with hroom | ⟨hfull, hexcuse⟩
  · left
    filter_upwards [F.carries, hroom] with q hq hroom
    exact (hdoes q hq hroom).runs
  · right
    refine ⟨?_, hexcuse⟩
    filter_upwards [F.carries, hfull] with q hq hfull
    exact hfails q hq hfull

/-- A frame is made, if there is room. -/
theorem prolog {arg : Word} (hop : F.base.At t.ip 20) (harg : F.base.At (t.ip + 1) arg) :
    F.machine.runs 1 t { t with
      ip := t.ip + 2, cp := t.cp + depth arg
      call := clearAbove t.call t.cp (depth arg) } ∨
        F.machine.fails t .callOverflow ∧ F.excuse .callOverflow :=
  F.does_or_fails F.call (t.cp + depth arg)
    (fun _ hq => does_prolog (hq.word hop) (hq.word harg))
    (fun _ hq => fails_prolog (hq.word hop) (hq.word harg))

end Family

end Bispe
