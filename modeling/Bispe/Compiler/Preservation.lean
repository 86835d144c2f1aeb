import Bispe.Compiler.Bounds
import Bispe.Compiler.Calls
import Bispe.Compiler.Linking
import Bispe.Compiler.Written

/-!
# Preservation

A compiled program behaves on the machine as its syntax says.  The code of every definition
is in the segment and laid out as its frame says; the entry loads the arguments of the
program and calls `main`; so the machine prints what the program prints and comes to the
same end, unless one of its stacks overflows first.  If the program has an end, no stack does
from some sizes on.

## Main definitions

* `linked_of_generated` — the definitions of a program are loaded.
* `entry_tracks` — the entry tracks the program.
* `Program.Outcome` — how a program behaves on the machine.
* `generated_hasRoom` — large stacks do not overflow.
* `generator_preserves`, `compiled_exact` — compiled programs run as they are written.
-/

namespace Bispe

open Effect Flat Tracking

/-! ## Loaded programs -/

theorem itemsSize_split (pre post : List Item) (item : Item) :
    itemsSize (pre ++ item :: post) = itemsSize pre + (item.size + itemsSize post) := by
  simp [itemsSize]

section Generated
variable {junk : Junk} {t : FuncTable} {items : List Item} {code : List CodeElem} {s : GState}

/-- **The definitions of a program are loaded**, if it is well formed. -/
theorem linked_of_generated (hreg : Registers (fun _ => none) items t)
    (hgen : generateCode junk t (headNode items) = .ok (some code) s) (hwf : WellFormed items)
    (hsize : itemsSize items < 2 ^ 30) {p : Program} (hp : p.Holds 0 (code ++ [elem .finish 0])) :
    Linked p (words code) junk (startOf junk s) (definitions items) := by
  intro g f hg
  obtain ⟨hf, hname⟩ := definitions_eq_some hg
  obtain ⟨pre, post, hitems⟩ := List.append_of_mem hf
  obtain ⟨_, -, -, -, hlt⟩ := generateCode_eq_some hgen
  obtain ⟨_, l, b, ft, r, -, -, -, hsplit, -, hstart, hsame, haddr⟩ :=
    generateCode_function hreg hgen hitems
  have hreg' := hreg
  rw [hitems] at hreg'
  obtain ⟨t₁, t₂, hat⟩ := hreg'.at
  have hrepeats : ∀ p, .proto p ∈ pre → p.name = f.name → p.params.names = f.params.names := by
    intro p hp
    refine hwf.repeats p f ?_ hf
    rw [hitems]
    exact List.mem_append_left _ hp
  obtain ⟨info, hinfo, hlaid, hvars⟩ := hat.laid hrepeats
  -- the frame is small
  have hsum := itemsSize_split pre post (.func f)
  rw [← hitems, Item.size] at hsum
  have hmax : 2 * f.maxCall ≤ itemsSize pre := by
    rcases hat.item.2.1 with hzero | ⟨g, info', hinfo', hcount⟩
    · rw [hzero]
      exact Nat.zero_le _
    · have hle := hat.before.argCount_le (n := 0) (by simp) g info' hinfo'
      omega
  have hsmall : f.frame + f.params.names.length < 2 ^ 30 := by
    rw [Func.frame]
    omega
  have hslots : SlotsAt ft f.name f.slots := by
    intro x n hx
    obtain ⟨-, -, hbound⟩ := f.slots_bounds hx
    have hpos : info.pos x = some n := (hlaid.pos x).trans hx
    refine ⟨?_, by omega⟩
    rw [hsame.slot, slot, hinfo]
    simp [hpos]
  have hframe : frameSize ft f.name = f.frame := by
    rw [hsame.frameSize, frameSize, hinfo, Func.frame]
    simp [FuncInfo.frameSize, hlaid.varCount, hlaid.maxCallSize]
  have hwords : words code = words l + words (f.emit ft junk b (words l)) + words r := by
    rw [hsplit, words_append, words_append]
  have hcode := hp.left
  rw [hsplit] at hcode
  have hpiece := hcode.left.right
  rw [Nat.zero_add, ← hstart] at hpiece
  rw [← hstart] at hwords
  refine ⟨hname, ft, b, ⟨⟨hslots, hframe, hsmall, ?_, hlt⟩, hpiece, by omega, hlaid.nodup, ?_, ?_,
    ?_, hwf.closes f hf⟩⟩
  · have hfinish := hp.right.opcode.lt
    rwa [Nat.zero_add] at hfinish
  · intro x hx
    rcases List.mem_append.mp hx with hx | hx
    · rw [Func.slots, ← hlaid.pos x]
      exact hvars x hx
    · rw [Func.slots, framePos, if_pos hx]
      exact Option.some_ne_none _
  · intro c hc
    obtain ⟨old, hold, hcount, -, hle⟩ := hat.item.1 c hc
    obtain ⟨info', hinfo', hcount'⟩ := hat.counts _ _ hold
    refine ⟨?_, hle⟩
    rw [hsame.argCount, callArgCount, hinfo']
    exact hcount'.trans hcount
  · intro c hc
    rw [haddr, if_pos (definitions_isSome.mp (hwf.backward pre f post hitems c hc))]

end Generated

/-! ## The entry -/

/-- The machine runs the code with these arguments. -/
structure Program.Carries (p : Program) (code : List CodeElem) (args : List Word) : Prop where
  holds : p.Holds 0 code
  argc : p.argc = args.length
  argv : ∀ j w, args[j]? = some w → p.argv j = w

theorem Program.ofCode_carries (code : List CodeElem) (stackWords callWords : ℕ)
    (args : List Word) : (Program.ofCode code stackWords callWords args).Carries code args where
  holds := Program.ofCode_holds code stackWords callWords args
  argc := rfl
  argv := by
    intro j w hj
    simp [Program.ofCode, hj]

/-- Other machines that run the code may have more of it. -/
theorem Program.Carries.extends {p : Program} {code : List CodeElem} {args : List Word}
    (h : p.Carries code args) (stackWords callWords : ℕ) :
    (Program.ofCode code stackWords callWords args).Extends p where
  word := by
    intro i w hw
    have hlt : i < (encode code).length := by
      rw [length_encode]
      exact Nat.lt_of_mul_lt_mul_left hw.lt
    have hat := h.holds i _ (List.getElem?_eq_getElem hlt)
    rw [Nat.zero_add] at hat
    have hword : (encode code)[i] = w := by
      rw [← hw.code]
      simp [Program.ofCode, List.getElem?_eq_getElem hlt]
    rwa [hword] at hat
  argc := h.argc
  argv := by
    intro j hj
    have hlt : j < args.length := hj
    rw [h.argv j _ (List.getElem?_eq_getElem hlt)]
    simp [Program.ofCode, hlt]

section Entry
variable {F : Family} {args : List Word} {t : Flat}

/-- The program arguments from the `i`-th on are loaded, each into its slot. -/
theorem argloads_run {i n : ℕ} (hargc : F.base.argc = args.length)
    (hargv : ∀ j w, args[j]? = some w → F.base.argv j = w) (hargs : i + n ≤ args.length)
    (hcp : i + n ≤ t.cp) (hsmall : t.cp < 2 ^ 30) (hcode : F.base.Holds t.ip (argloadCode i n)) :
    ∃ t', F.machine.runs n t t' ∧ t'.ip = t.ip + words (argloadCode i n) ∧ t'.sp = t.sp ∧
      t'.cp = t.cp ∧ t'.printed = t.printed ∧
      (∀ j < i, t'.call (t.cp - j) = t.call (t.cp - j)) ∧
      ∀ j w, i ≤ j → j < i + n → args[j]? = some w → t'.call (t.cp - j) = some w := by
  induction n generalizing i t with
  | zero =>
      refine ⟨t, F.machine.refl t, rfl, rfl, rfl, rfl, fun _ _ => rfl, fun j w hj hlt => ?_⟩
      omega
  | succ n ih =>
      have hdepth : depth (BitVec.ofNat 32 i) = i := depth_ofNat (by omega)
      have hnat : (BitVec.ofNat 32 i).toNat = i := by
        rw [BitVec.toNat_ofNat, Nat.mod_eq_of_lt (by omega)]
      have hstep := F.argload hcode.opcode (hcode.operand rfl) (by rw [elem, hnat, hargc]; omega)
        (by rw [elem, hdepth]; omega)
      rw [elem, hdepth, hnat] at hstep
      obtain ⟨t', hrun, hip, hsp, hcp', hprinted, hbefore, hloaded⟩ := ih (i := i + 1)
        (t := { t with
          ip := t.ip + 2, call := Function.update t.call (t.cp - i) (some (F.base.argv i)) })
        (by omega) (by simp only; omega) hsmall hcode.tail
      have hcount := Nat.add_comm 1 n
      refine ⟨t', ?_, ?_, hsp, hcp', hprinted, fun j hj => ?_, fun j w hle hlt hw => ?_⟩
      · rw [← hcount]
        exact F.machine.trans hstep hrun
      · rw [hip, argloadCode, words_cons, ← Nat.add_assoc]
        rfl
      · have hne : t.cp - j ≠ t.cp - i := by omega
        rw [hbefore j (by omega)]
        exact Function.update_of_ne hne ..
      · by_cases hj : j = i
        · subst hj
          rw [hbefore j (by omega), ← hargv j w hw]
          exact Function.update_self ..
        · exact hloaded j w (by omega) (by omega) hw

/-- **The entry** makes a frame of the arguments, if there is room. -/
theorem entryArgs_run {n : ℕ} (hargc : F.base.argc = args.length)
    (hargv : ∀ j w, args[j]? = some w → F.base.argv j = w) (hargs : n ≤ args.length)
    (hsmall : n < 2 ^ 30) (hcode : F.base.Holds 0 (entryArgs n)) :
    (∃ m t, F.machine.runs m .initial t ∧ t.ip = words (entryArgs n) ∧ t.printed = [] ∧
      ArgsAt (args.take n) t) ∨
      F.machine.fails .initial .callOverflow ∧ F.excuse .callOverflow := by
  rw [entryArgs] at hcode ⊢
  by_cases hn : 0 < n
  · rw [if_pos hn] at hcode ⊢
    have hdepth : depth (BitVec.ofNat 32 n) = n := depth_ofNat hsmall
    have hstep := F.prolog (t := .initial) hcode.left.opcode (hcode.left.operand rfl)
    rw [elem, hdepth] at hstep
    refine hstep.imp_left fun hprolog => ?_
    obtain ⟨t, hrun, hip, -, hcp, hprinted, -, hloaded⟩ := argloads_run (i := 0) (n := n)
      (t := { Flat.initial with
        ip := Flat.initial.ip + 2, cp := Flat.initial.cp + n
        call := clearAbove Flat.initial.call Flat.initial.cp n })
      hargc hargv (by omega) le_rfl ((Nat.zero_add n).symm ▸ hsmall) hcode.right
    refine ⟨1 + n, t, F.machine.trans hprolog hrun, ?_, hprinted, fun i w hi => ?_⟩
    · rw [hip, words_append]
      rfl
    · rw [List.getElem?_take] at hi
      split at hi
      · next hlt =>
        refine ⟨by rw [hcp]; exact (Nat.zero_add n).symm ▸ hlt.le, ?_⟩
        rw [hcp]
        exact hloaded i w (Nat.zero_le i) (by omega) hi
      · cases hi
  · left
    obtain rfl : n = 0 := Nat.eq_zero_of_not_pos hn
    refine ⟨0, .initial, F.machine.refl _, rfl, rfl, ?_⟩
    simp [ArgsAt]

end Entry

/-! ## Programs -/

/-- The arguments of a run are those of `main`, and there are enough of them. -/
def EnoughArgs (items : List Item) (args : List Word) : Prop :=
  ∀ main, definitions items "main" = some main → main.params.names.length ≤ args.length

/-- **Programs.** -/
theorem entry_tracks {junk : Junk} {t : FuncTable} {items : List Item} {code : List CodeElem}
    {s : GState} (hreg : Registers (fun _ => none) items t)
    (hgen : generateCode junk t (headNode items) = .ok (some code) s) (hwf : WellFormed items)
    (hsize : itemsSize items < 2 ^ 30) {F : Family} {args : List Word}
    (hp : F.base.Carries (code ++ [elem .finish 0]) args) (hargs : EnoughArgs items args) (k : ℕ) :
    F.machine.Tracks F.excuse k (runProgram items args k) .initial fun _ t => F.base.At t.ip 1 := by
  have hlinked := linked_of_generated hreg hgen hwf hsize hp.holds
  obtain ⟨info, hinfo, -, hcode, -⟩ := generateCode_eq_some hgen
  rw [runProgram]
  cases hmain : definitions items "main" with
  | none => exact .undefined
  | some main =>
      have hcount : info.argCount = main.params.names.length := by
        obtain ⟨hmem, hname⟩ := definitions_eq_some hmain
        obtain ⟨pre, post, hitems⟩ := List.append_of_mem hmem
        have hreg' := hreg
        rw [hitems] at hreg'
        obtain ⟨t₁, t₂, hat⟩ := hreg'.at
        obtain ⟨info', hinfo', hlaid, -⟩ := hat.laid fun q hq => by
          refine hwf.repeats q main ?_ hmem
          rw [hitems]
          exact List.mem_append_left _ hq
        rw [hname, hinfo] at hinfo'
        rw [Option.some.inj hinfo']
        exact hlaid.argCount
      have hbound := hargs main hmain
      obtain ⟨_, ft, before, hloaded⟩ := hlinked "main" main hmain
      have hsmall := hloaded.small
      rw [hcount] at hcode
      have hentry := hp.holds.left
      rw [hcode, entryCode] at hentry
      have hcall := hentry.left.right
      rw [Nat.zero_add] at hcall
      have hwords : words (entryArgs main.params.names.length) + 2 ≤ words code := by
        rw [hcode, entryCode, words_append, words_append, words_cons]
        change words (entryArgs main.params.names.length) + 2 ≤
          words (entryArgs main.params.names.length) + (2 + words [elem .finish 0]) + _
        omega
      rcases entryArgs_run hp.argc hp.argv hbound (by omega) hentry.left.left with
        ⟨m, t, hrun, hip, hprinted, hslots⟩ | ⟨hfail, hexcuse⟩
      · rw [← hip] at hcall hwords
        refine .steps hrun hprinted ?_
        have hoperand := hcall.operand rfl
        have haddr :
            callAddr s.funcTable junk "main" = BitVec.ofNat 32 (startOf junk s "main") := by
          rw [startOf, BitVec.ofNat_toNat, BitVec.setWidth_eq]
        rw [haddr] at hoperand
        refine (callSem_tracks hlinked k "main" _ t hcall.opcode hoperand hwords hslots).mono
          fun v t' ht' => ?_
        rw [ht'.ip]
        exact hcall.tail.opcode
      · exact .giveUp hfail hexcuse

/-- **How a program behaves on the machine**, given what it means with the bound `k`.  If
the machine has not stopped because a stack is full, it has printed the same values; it
finishes when the meaning has a value, stops with the fault it has, and has run for `k`
instructions at least when the bound is reached. -/
def Program.Outcome (p : Program) (k : ℕ) (x : Sem (Option Word)) : Prop :=
  (∃ n t e, dispatchLoop (flatMacros p) n .initial = .error (.error e) t ∧ Overflow e ∧
    t.printed <+: x.out) ∨
  match x.result with
  | .ok _ => ∃ n t, dispatchLoop (flatMacros p) n .initial = .ok .finish t ∧ t.printed = x.out
  | .error (.fault e) =>
      ∃ n t, dispatchLoop (flatMacros p) n .initial = .error (.error e) t ∧ t.printed = x.out
  | .error .timeout =>
      ∃ n t, k ≤ n ∧ dispatchLoop (flatMacros p) n .initial = .ok .next t ∧ t.printed = x.out
  | .error .undefined => True

/-- `FINISH` at the end of a run. -/
theorem Flat.Runs.finish {p : Program} {n : ℕ} {t t' : Flat} (h : Runs p n t t')
    (hop : p.At t'.ip 1) :
    ∃ t'', dispatchLoop (flatMacros p) (n + 1) t = .ok .finish t'' ∧ t''.printed = t'.printed := by
  obtain ⟨trace, htrace⟩ := h
  obtain ⟨t'', hfinish, hprinted⟩ := dispatch_finish (t := { t' with trace := trace }) hop
  exact ⟨t'', (dispatchLoop_snoc htrace).trans hfinish, hprinted⟩

theorem Program.outcome_of_tracks {p : Program} {k : ℕ} {x : Sem (Option Word)}
    (h : (machine p).Tracks Overflow k x .initial fun _ t => p.At t.ip 1) : p.Outcome k x := by
  rcases h with hundefined | ⟨n, t, e, hrun, hfail, hoverflow, hout⟩ | ⟨n, t, hrun, hout, hends⟩
  · right
    rw [hundefined]
    trivial
  · left
    obtain ⟨t', herror, hprinted⟩ := Runs.fails hrun hfail
    refine ⟨n + 1, t', e, herror, hoverflow, ?_⟩
    rw [hprinted]
    exact hout
  · right
    cases hx : x.result with
    | ok v =>
        rw [hx] at hends
        obtain ⟨t', hfinish, hprinted⟩ := Runs.finish hrun hends
        exact ⟨n + 1, t', hfinish, hprinted.trans hout⟩
    | error trap =>
        rw [hx] at hends
        cases trap with
        | undefined => trivial
        | fault e =>
            obtain ⟨t', herror, hprinted⟩ := Runs.fails hrun hends
            exact ⟨n + 1, t', herror, hprinted.trans hout⟩
        | timeout =>
            obtain ⟨trace, htrace⟩ := hrun
            exact ⟨n, _, hends, htrace, hout⟩

/-! ## Ends of runs -/

namespace Program

/-- The program finishes after it has printed these values. -/
def Finishes (p : Program) (o : List Word) : Prop :=
  ∃ n t, dispatchLoop (flatMacros p) n .initial = .ok .finish t ∧ t.printed = o

/-- The program stops with an error after it has printed these values. -/
def Stops (p : Program) (e : Err) (o : List Word) : Prop :=
  ∃ n t, dispatchLoop (flatMacros p) n .initial = .error (.error e) t ∧ t.printed = o

/-- The program runs for ever. -/
def RunsOn (p : Program) : Prop :=
  ∀ n, ∃ t, dispatchLoop (flatMacros p) n .initial = .ok .next t

/-- The stacks of the machine have room for the program. -/
def HasRoom (p : Program) : Prop := ∀ e o, p.Stops e o → ¬ Overflow e

theorem Finishes.hasRoom {p : Program} {o : List Word} (h : p.Finishes o) : p.HasRoom := by
  obtain ⟨n, t, hfinish, -⟩ := h
  rintro e o' ⟨m, t', herror, -⟩
  cases dispatchLoop_unique hfinish (by simp) herror (by simp)

theorem Stops.hasRoom {p : Program} {e : Err} {o : List Word} (h : p.Stops e o)
    (he : ¬ Overflow e) : p.HasRoom := by
  obtain ⟨n, t, herror, -⟩ := h
  rintro e' o' ⟨m, t', herror', -⟩
  cases dispatchLoop_unique herror (by simp) herror' (by simp)
  exact he

/-- A machine that tracks an evaluation to its end, without an excuse, has room for it. -/
theorem hasRoom_of_tracks {p : Program} {k : ℕ} {x : Sem (Option Word)}
    (h : (machine p).Tracks (fun _ => False) k x .initial fun _ t => p.At t.ip 1)
    (htime : x.result ≠ .error .timeout) (hdef : x.result ≠ .error .undefined)
    (hfaults : x.OnlyDivZero) : p.HasRoom := by
  rcases h with hundefined | ⟨_, _, _, -, -, hexcuse, -⟩ | ⟨n, t, hrun, -, hends⟩
  · exact absurd hundefined hdef
  · exact hexcuse.elim
  · cases hx : x.result with
    | ok v =>
        rw [hx] at hends
        obtain ⟨t', hfinish, -⟩ := Runs.finish hrun hends
        exact Finishes.hasRoom ⟨n + 1, t', hfinish, rfl⟩
    | error trap =>
        rw [hx] at hends
        cases trap with
        | undefined => exact absurd hx hdef
        | timeout => exact absurd hx htime
        | fault e =>
            obtain rfl : e = .divZero := hfaults e hx
            obtain ⟨t', herror, -⟩ := Runs.fails hrun hends
            exact Stops.hasRoom ⟨n + 1, t', herror, rfl⟩ (by simp [Overflow])

/-- The machine does exactly what is meant, by the bound: it finishes, divides by zero or
runs on for ever if and only if that is the meaning. -/
structure Exact (p : Program) (x : ℕ → Sem (Option Word)) : Prop where
  finishes : ∀ o, p.Finishes o ↔ ∃ k v, x k = ⟨o, .ok v⟩
  stops : ∀ e o, p.Stops e o ↔ e = .divZero ∧ ∃ k, x k = ⟨o, .error (.fault .divZero)⟩
  runsOn : p.RunsOn ↔ ∀ k, (x k).result = .error .timeout

variable {p : Program} {x : ℕ → Sem (Option Word)}

/-- A run does not go on after it has stopped. -/
theorem next_lt {n m : ℕ} {t : Flat} {r : EStateM.Result FlatStop Flat Ctl}
    (h : dispatchLoop (flatMacros p) n .initial = .ok .next t)
    (hstop : dispatchLoop (flatMacros p) m .initial = r) (hr : ∀ t', r ≠ .ok .next t') : n < m := by
  by_contra hle
  have hlater := dispatchLoop_stopped (m := n - m) hstop hr
  rw [show m + (n - m) = n by omega, h] at hlater
  exact hr t hlater.symm

/-- **The end of a run**, by a bound that it does not reach. -/
theorem Outcome.end {k n : ℕ} {y : Sem (Option Word)} {r : EStateM.Result FlatStop Flat Ctl}
    (h : p.Outcome k y) (hroom : p.HasRoom) (hdef : y.result ≠ .error .undefined) (hk : n ≤ k)
    (hstop : dispatchLoop (flatMacros p) n .initial = r) (hr : ∀ t', r ≠ .ok .next t') :
    (∃ v t, r = .ok .finish t ∧ y = ⟨t.printed, .ok v⟩) ∨
      ∃ e t, r = .error (.error e) t ∧ y = ⟨t.printed, .error (.fault e)⟩ := by
  obtain ⟨o, result⟩ := y
  rcases h with ⟨m, t, e, herror, hoverflow, -⟩ | h
  · exact absurd hoverflow (hroom e t.printed ⟨m, t, herror, rfl⟩)
  · cases result with
    | ok v =>
        obtain ⟨m, t, hfinish, rfl⟩ := h
        exact .inl ⟨v, t, dispatchLoop_unique hstop hr hfinish (by simp), rfl⟩
    | error trap =>
        cases trap with
        | undefined => exact absurd rfl hdef
        | fault e =>
            obtain ⟨m, t, herror, rfl⟩ := h
            exact .inr ⟨e, t, dispatchLoop_unique hstop hr herror (by simp), rfl⟩
        | timeout =>
            obtain ⟨m, t, hle, hnext, -⟩ := h
            have hlt := next_lt hnext hstop hr
            omega

/-- **The machine does exactly what is meant**, where it has a meaning and the stacks have
room. -/
theorem exact_of_outcome (h : ∀ k, p.Outcome k (x k)) (hroom : p.HasRoom)
    (hdef : ∀ k, (x k).result ≠ .error .undefined) (hfaults : ∀ k, (x k).OnlyDivZero) :
    p.Exact x := by
  have hcases (k : ℕ) := (h k).resolve_left fun ⟨m, t, e, herror, hoverflow, _⟩ =>
    hroom e t.printed ⟨m, t, herror, rfl⟩ hoverflow
  refine ⟨fun o => ⟨?_, ?_⟩, fun e o => ⟨?_, ?_⟩, fun hon k => ?_, fun htime n => ?_⟩
  · rintro ⟨n, t, hstop, rfl⟩
    rcases (h n).end hroom (hdef n) le_rfl hstop (by simp) with ⟨v, t', ht, hx⟩ | ⟨e, t', ht, -⟩
    · injection ht with _ ht
      exact ⟨n, v, ht ▸ hx⟩
    · cases ht
  · rintro ⟨k, v, hx⟩
    have hend := hcases k
    rw [hx] at hend
    exact hend
  · rintro ⟨n, t, hstop, rfl⟩
    rcases (h n).end hroom (hdef n) le_rfl hstop (by simp) with ⟨v, t', ht, -⟩ | ⟨e', t', ht, hx⟩
    · cases ht
    · injection ht with he ht
      injection he with he
      have hzero : e' = .divZero := hfaults n e' (by rw [hx])
      subst hzero
      exact ⟨he, n, by rw [ht, hx]⟩
  · rintro ⟨rfl, k, hx⟩
    have hend := hcases k
    rw [hx] at hend
    exact hend
  · have hend := hcases k
    cases hx : (x k).result with
    | ok v =>
        rw [hx] at hend
        obtain ⟨n, t, hstop, -⟩ := hend
        obtain ⟨t', hnext⟩ := hon n
        rw [hnext] at hstop
        cases hstop
    | error trap =>
        rw [hx] at hend
        cases trap with
        | undefined => exact absurd hx (hdef k)
        | timeout => rfl
        | fault e =>
            obtain ⟨n, t, hstop, -⟩ := hend
            obtain ⟨t', hnext⟩ := hon n
            rw [hnext] at hstop
            cases hstop
  · have hend := hcases n
    rw [htime n] at hend
    obtain ⟨m, t, hle, hnext, -⟩ := hend
    by_contra hstopped
    push Not at hstopped
    have hlt := next_lt hnext rfl hstopped
    omega

end Program

/-! ## Compiled programs -/

section Generated
variable {junk : Junk} {t : FuncTable} {items : List Item} {code : List CodeElem} {s : GState}
  {args : List Word}

/-- On one machine, a full stack may end the run. -/
theorem generated_outcome (hreg : Registers (fun _ => none) items t)
    (hgen : generateCode junk t (headNode items) = .ok (some code) s) (hwf : WellFormed items)
    (hsize : itemsSize items < 2 ^ 30) (hargs : EnoughArgs items args) {p : Program}
    (hp : p.Carries (code ++ [elem .finish 0]) args) (k : ℕ) :
    p.Outcome k (runProgram items args k) := by
  have htracks := (Family.single p).tracks (entry_tracks hreg hgen hwf hsize hp hargs k)
  exact Program.outcome_of_tracks (Filter.eventually_pure.mp htracks)

/-- **Large stacks have room.**  From some stack sizes on, no machine that runs the program
overflows a stack, if the program has an end by some bound. -/
theorem generated_hasRoom (hreg : Registers (fun _ => none) items t)
    (hgen : generateCode junk t (headNode items) = .ok (some code) s) (hwf : WellFormed items)
    (hsize : itemsSize items < 2 ^ 30) (hargs : EnoughArgs items args) {k : ℕ}
    (htime : (runProgram items args k).result ≠ .error .timeout)
    (hdef : (runProgram items args k).result ≠ .error .undefined) :
    ∃ stackWords callWords, ∀ p : Program, p.Carries (code ++ [elem .finish 0]) args →
      stackWords ≤ p.stackWords → callWords ≤ p.callWords → p.HasRoom := by
  let base := Program.ofCode (code ++ [elem .finish 0]) 0 0 args
  have hbase : base.Carries (code ++ [elem .finish 0]) args := Program.ofCode_carries _ 0 0 args
  have htracks := (Family.large base).tracks (entry_tracks hreg hgen hwf hsize hbase hargs k)
  obtain ⟨stackWords, callWords, hlarge⟩ := Family.eventually_growing.mp htracks
  refine ⟨stackWords, callWords, fun p hp hstack hcall => ?_⟩
  have hextends : base.Extends p := hp.extends 0 0
  exact Program.hasRoom_of_tracks
    ((hlarge p hextends hstack hcall).mono fun _ t ht => hextends.word ht) htime hdef
    (runProgram_onlyDivZero items args k)

end Generated

/-- **The generator preserves the meaning of programs.**  The code that is generated for a
well-formed program, with a final `FINISH` behind it, prints on a machine of any size what
the program prints with any bound on its loops and calls, and finishes, faults or runs on
as the program does, unless one of the stacks overflows before.  By `generated_hasRoom` none
does on large stacks. -/
theorem generator_preserves {junk : Junk} {t : FuncTable} {items : List Item}
    {code : List CodeElem} {s : GState} (hreg : Registers (fun _ => none) items t)
    (hgen : generateCode junk t (headNode items) = .ok (some code) s) (hwf : WellFormed items)
    (hsize : itemsSize items < 2 ^ 30) {args : List Word} (hargs : EnoughArgs items args)
    (stackWords callWords k : ℕ) :
    (Program.ofCode (code ++ [elem .finish 0]) stackWords callWords args).Outcome k
      (runProgram items args k) := by
  have hp := Program.ofCode_carries (code ++ [elem .finish 0]) stackWords callWords args
  exact generated_outcome hreg hgen hwf hsize hargs hp k

/-- `void main(int n) { for (int i = 0; i < n; i = i + 1) { print 6 / (n - i); } }` -/
def countdown : Func where
  ret := .dtypeVoid
  name := "main"
  params := .last .dtypeInt "n"
  body := .seq (.forLoop (.varDef .dtypeInt "i" (some (.unary (.lit 0))))
    ⟨.unary (.var "i"), .lt, .unary (.var "n")⟩ "i" (.bin (.var "i") .plus (.unary (.lit 1)))
    (.seq (.print (.bin (.lit 6) .slash
      (.unary (.paren (.bin (.var "n") .minus (.unary (.var "i"))))))) .skip)) .skip
  maxCall := 0

theorem countdown_calls : countdown.body.calls = [] := rfl

theorem countdown_wellFormed : WellFormed [.func countdown] where
  backward := by
    intro pre f post hitems c hc
    have hf : .func f ∈ [Item.func countdown] := by
      rw [hitems]
      simp
    obtain rfl : f = countdown := by simpa using hf
    rw [countdown_calls] at hc
    cases hc
  repeats := by
    intro p f hp
    simp at hp
  closes := by
    intro f hf
    obtain rfl : f = countdown := by simpa using hf
    decide

/-- The loop is at the word 15, its condition at the word 31. -/
def countdownCode : List CodeElem :=
  [elem .prolog 1, elem .argload 0, ⟨.call, 7, some "main"⟩, elem .finish 0,
   elem .prolog 1, elem .push 0, elem .store 0, elem .jmp 31,
   elem .push 6, elem .load 2, elem .load 0, elem .sub 0, elem .div 0, elem .print 0,
   elem .load 0, elem .push 1, elem .add 0, elem .store 0,
   elem .load 0, elem .load 2, elem .jl 15, elem .epilog 1, elem .ret 0]

theorem countdown_generated : ∃ t, Registers (fun _ => none) [.func countdown] t ∧
    ∃ s, generateCode (fun _ => 0) t (headNode [.func countdown]) = .ok (some countdownCode) s :=
  ⟨_, .cons ⟨.nil, .inl rfl, _, _, _, rfl, rfl, rfl, rfl, rfl⟩ (.nil _),
    valueOf_eq_some (by decide +kernel)⟩

theorem countdown_meaning : runProgram [.func countdown] [3] 5 = ⟨[2, 3, 6], .ok none⟩ := by
  decide +kernel

theorem countdown_enoughArgs : EnoughArgs [.func countdown] [3] := by
  intro main hmain
  obtain rfl := Option.some.inj hmain
  decide

/-- With the argument 3, the program prints 2, 3 and 6. -/
theorem generator_preserves_small :
    (Program.ofCode (countdownCode ++ [elem .finish 0]) 16 16 [3]).Outcome 5
      ⟨[2, 3, 6], .ok none⟩ := by
  obtain ⟨t, hreg, s, hgen⟩ := countdown_generated
  rw [← countdown_meaning]
  exact generator_preserves hreg hgen countdown_wellFormed (by decide) countdown_enoughArgs 16 16 5

/-- **Compiled programs do exactly what they mean.**  A token list that is compiled is the
text of a program.  If the program is well formed and never undefined, and the stacks of the
machine have room for it, then the machine finishes after it has printed some values if and
only if the program ends so, runs on for ever if and only if the program does, and stops with
an error if and only if the program divides by zero. -/
theorem compiled_exact {junk : Junk} {fuel : ℕ} {first : List Token} {code : List CodeElem}
    (h : compile junk fuel first = some code) (hsize : first.length ≤ 2 ^ 30) :
    ∃ items w eof rest, first = w ++ eof :: rest ∧ eof.type = .tokEof ∧ Written items w ∧
      (WellFormed items → ∀ args stackWords callWords, EnoughArgs items args →
        let p := Program.ofCode (code ++ [elem .finish 0]) stackWords callWords args
        p.HasRoom → (∀ k, (runProgram items args k).result ≠ .error .undefined) →
          p.Exact (runProgram items args)) := by
  obtain ⟨items, w, eof, rest, s, s', hfirst, heof, hwritten, hlt, -, hreg, hgen⟩ :=
    compile_written h
  refine ⟨items, w, eof, rest, hfirst, heof, hwritten,
    fun hwf args stackWords callWords hargs => ?_⟩
  intro p hroom hdef
  have hp := Program.ofCode_carries (code ++ [elem .finish 0]) stackWords callWords args
  have houtcome := generated_outcome hreg hgen hwf (by omega) hargs hp
  exact Program.exact_of_outcome houtcome hroom hdef fun k => runProgram_onlyDivZero items args k

/-! ### An example -/

def countdownTokens : List Token :=
  [⟨.tokVoid, "void"⟩, ⟨.tokIdentifier, "main"⟩, ⟨.tokOpenpa, "("⟩, ⟨.tokInt, "int"⟩,
   ⟨.tokIdentifier, "n"⟩, ⟨.tokClosepa, ")"⟩, ⟨.tokOpenbr, "\x7b"⟩, ⟨.tokFor, "for"⟩,
   ⟨.tokOpenpa, "("⟩, ⟨.tokInt, "int"⟩, ⟨.tokIdentifier, "i"⟩, ⟨.tokEq, "="⟩,
   ⟨.tokIntliteral, "0"⟩, ⟨.tokSemicl, ";"⟩, ⟨.tokIdentifier, "i"⟩, ⟨.tokLt, "<"⟩,
   ⟨.tokIdentifier, "n"⟩, ⟨.tokSemicl, ";"⟩, ⟨.tokIdentifier, "i"⟩, ⟨.tokEq, "="⟩,
   ⟨.tokIdentifier, "i"⟩, ⟨.tokPlus, "+"⟩, ⟨.tokIntliteral, "1"⟩, ⟨.tokClosepa, ")"⟩,
   ⟨.tokOpenbr, "\x7b"⟩, ⟨.tokPrint, "print"⟩, ⟨.tokIntliteral, "6"⟩, ⟨.tokSlash, "/"⟩,
   ⟨.tokOpenpa, "("⟩, ⟨.tokIdentifier, "n"⟩, ⟨.tokMinus, "-"⟩, ⟨.tokIdentifier, "i"⟩,
   ⟨.tokClosepa, ")"⟩, ⟨.tokSemicl, ";"⟩, ⟨.tokClosebr, "\x7d"⟩, ⟨.tokClosebr, "\x7d"⟩,
   ⟨.tokEof, ""⟩]

theorem countdown_written : Written [.func countdown] countdownTokens.dropLast :=
  ⟨_, _, (List.append_nil _).symm,
    ⟨parses_of_read 40 (.initial countdownTokens.dropLast) (by decide +kernel),
      countdown.body.isMaxCall⟩, rfl⟩

theorem countdown_compiled : compile (fun _ => 0) 60 countdownTokens = some countdownCode := by
  decide +kernel

theorem countdown_hasRoom :
    (Program.ofCode (countdownCode ++ [elem .finish 0]) 16 16 [3]).HasRoom := by
  obtain ⟨t, hfinish⟩ : ∃ t, dispatchLoop
      (flatMacros (Program.ofCode (countdownCode ++ [elem .finish 0]) 16 16 [3])) 60 .initial =
        .ok .finish t := valueOf_eq_some (by decide +kernel)
  exact Program.Finishes.hasRoom ⟨60, t, hfinish, rfl⟩

theorem compiled_exact_small :
    (Program.ofCode (countdownCode ++ [elem .finish 0]) 16 16 [3]).Finishes [2, 3, 6] ∧
      ¬ (Program.ofCode (countdownCode ++ [elem .finish 0]) 16 16 [3]).RunsOn := by
  obtain ⟨items, w, eof, rest, hfirst, heof, hwritten, hexact⟩ :=
    compiled_exact countdown_compiled (by decide)
  have hsplit : countdownTokens.dropLast ++ [⟨.tokEof, ""⟩] = w ++ eof :: rest := hfirst
  obtain rfl := (countdown_written.unique_of_eof rfl hwritten heof hsplit).1
  have hdef : ∀ k, (runProgram [.func countdown] [3] k).result ≠ .error .undefined := by
    intro k
    refine runProgram_defined (k := 5) ?_ ?_ k
    · rw [countdown_meaning]
      simp
    · rw [countdown_meaning]
      simp
  have hp := hexact countdown_wellFormed [3] 16 16 countdown_enoughArgs countdown_hasRoom hdef
  refine ⟨(hp.finishes _).mpr ⟨5, none, countdown_meaning⟩, fun hon => ?_⟩
  have htime := hp.runsOn.mp hon 5
  rw [countdown_meaning] at htime
  cases htime

end Bispe
