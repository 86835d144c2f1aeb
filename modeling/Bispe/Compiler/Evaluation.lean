import Bispe.Backend.Families
import Bispe.Compiler.Semantics

/-!
# Expressions on the machine

The code of an expression pushes the word the expression means, whatever its calls do,
as long as each of them pushes what it returns.  Of the call stack it may change the words
for outgoing arguments, which are the topmost ones of the frame.  All of this is said of a
family of machines, so that it holds of one machine, whose stacks may be full, and of all
machines with large stacks.

## Main definitions

* `Leaves` — code has pushed words and has left the rest alone.
* `Variables` — the frame holds the words of the variables.
* `CallReady` — a call is given its callee, which the machine tracks.
* `Expr.tracks`, `Args.tracks`, `Cond.tracks` — the code tracks the meaning.
-/

namespace Bispe

open Effect Flat Tracking

/-- Code of `n` words has pushed the words `ws`, the first one first.  It has changed at
most the `m` topmost words of the call stack. -/
structure Leaves (m n : ℕ) (ws : List Word) (t t' : Flat) : Prop where
  ip : t'.ip = t.ip + n
  sp : t'.sp = t.sp + ws.length
  pushed : ∀ i w, ws[i]? = some w → t'.stack (t.sp + 1 + i) = some w
  below : ∀ i ≤ t.sp, t'.stack i = t.stack i
  cp : t'.cp = t.cp
  call : ∀ i, i + m ≤ t.cp → t'.call i = t.call i

namespace Leaves

variable {m n n' : ℕ} {ws ws' : List Word} {t t' t'' : Flat}

theorem refl (m : ℕ) (t : Flat) : Leaves m 0 [] t t :=
  ⟨rfl, rfl, by simp, fun _ _ => rfl, rfl, fun _ _ => rfl⟩

theorem trans (h : Leaves m n ws t t') (h' : Leaves m n' ws' t' t'') :
    Leaves m (n + n') (ws ++ ws') t t'' where
  ip := by rw [h'.ip, h.ip, Nat.add_assoc]
  sp := by rw [h'.sp, h.sp, List.length_append, Nat.add_assoc]
  pushed := by
    intro i w hi
    by_cases hlt : i < ws.length
    · rw [List.getElem?_append_left hlt] at hi
      rw [h'.below _ (by rw [h.sp]; omega), h.pushed i w hi]
    · rw [List.getElem?_append_right (by omega)] at hi
      have hw := h'.pushed _ w hi
      rw [h.sp] at hw
      rw [← hw]
      congr 1
      omega
  below := by
    intro i hi
    rw [h'.below i (by rw [h.sp]; omega), h.below i hi]
  cp := h'.cp.trans h.cp
  call := by
    intro i hi
    rw [h'.call i (by rw [h.cp]; exact hi), h.call i hi]

theorem mono {m' : ℕ} (h : Leaves m n ws t t') (hm : m ≤ m') : Leaves m' n ws t t' :=
  ⟨h.ip, h.sp, h.pushed, h.below, h.cp, fun i hi => h.call i (by omega)⟩

/-- One instruction that pushes. -/
theorem push (m n : ℕ) (w : Word) (t : Flat) : Leaves m n [w] t { t with
    ip := t.ip + n, sp := t.sp + 1
    stack := Function.update t.stack (t.sp + 1) (some w) } where
  ip := rfl
  sp := rfl
  pushed := by
    intro i v hi
    obtain ⟨hlt, rfl⟩ := List.getElem?_eq_some_iff.mp hi
    obtain rfl : i = 0 := by simpa using hlt
    exact Function.update_self ..
  below i hi := Function.update_of_ne (by omega) ..
  cp := rfl
  call _ _ := rfl

theorem operands {a b : Word} (h : Leaves m n [a, b] t t') : Operands t' a b where
  right := by
    rw [h.sp]
    exact h.pushed 1 b rfl
  left := by
    rw [h.sp]
    exact h.pushed 0 a rfl
  sp := by
    rw [h.sp]
    exact Nat.succ_ne_zero _

/-- An operation leaves its value in the place of two. -/
theorem apply {a b : Word} (h : Leaves m n [a, b] t t') (w : Word) :
    Leaves m (n + 1) [w] t { t' with
      ip := t'.ip + 1, sp := t'.sp - 1
      stack := Function.update t'.stack (t'.sp - 1) (some w) } := by
  have hsp : t'.sp - 1 = t.sp + 1 := by
    rw [h.sp]
    rfl
  rw [hsp]
  refine ⟨by rw [h.ip, Nat.add_assoc], rfl, ?_, ?_, h.cp, h.call⟩
  · intro i v hi
    obtain ⟨hlt, rfl⟩ := List.getElem?_eq_some_iff.mp hi
    obtain rfl : i = 0 := by simpa using hlt
    exact Function.update_self ..
  · intro i hi
    exact (Function.update_of_ne (by omega) ..).trans (h.below i hi)

/-- The words that were pushed are popped. -/
theorem pop {k : ℕ} (h : Leaves m n ws t t') (hip : t''.ip = t'.ip + k) (hsp : t''.sp = t.sp)
    (hstack : t''.stack = t'.stack) (hcp : t''.cp = t'.cp)
    (hcall : ∀ i, i + m ≤ t'.cp → t''.call i = t'.call i) : Leaves m (n + k) [] t t'' where
  ip := by rw [hip, h.ip, Nat.add_assoc]
  sp := hsp
  pushed := by simp
  below := by
    intro i hi
    rw [hstack, h.below i hi]
  cp := hcp.trans h.cp
  call := by
    intro i hi
    rw [hcall i (by rw [h.cp]; exact hi), h.call i hi]

end Leaves

/-- The frame has room for `m` outgoing arguments, and above them it holds the words of the
variables in their slots. -/
structure Variables (m : ℕ) (pos : String → Option ℕ) (ρ : Valuation) (t : Flat) : Prop where
  room : m ≤ t.cp
  cell : ∀ x w, ρ x = some w →
    ∃ s, pos x = some s ∧ m ≤ s ∧ s ≤ t.cp ∧ t.call (t.cp - s) = some w

theorem Variables.leaves {m n : ℕ} {ws : List Word} {pos : String → Option ℕ} {ρ : Valuation}
    {t t' : Flat} (h : Variables m pos ρ t) (h' : Leaves m n ws t t') : Variables m pos ρ t' where
  room := by
    rw [h'.cp]
    exact h.room
  cell := by
    intro x w hx
    obtain ⟨s, hpos, hm, hs, hcell⟩ := h.cell x w hx
    refine ⟨s, hpos, hm, by rw [h'.cp]; exact hs, ?_⟩
    rw [h'.cp, h'.call _ (by omega), hcell]

/-! ## Instructions -/

section Instructions
variable {F : Family} {k : ℕ} {t : Flat} {P : Word → Flat → Prop}

theorem tracks_push {w : Word} (hop : F.base.At t.ip 2) (harg : F.base.At (t.ip + 1) w)
    (hP : P w { t with
      ip := t.ip + 2, sp := t.sp + 1
      stack := Function.update t.stack (t.sp + 1) (some w) }) :
    F.machine.Tracks F.excuse k (pure w) t P := by
  rcases F.does_or_fails F.stack (t.sp + 1)
      (fun q hq => does_push (hq.word hop) (hq.word harg))
      (fun q hq => fails_push (hq.word hop) (hq.word harg)) with hrun | ⟨hfail, hexcuse⟩
  · exact .steps hrun rfl (.pure hP)
  · exact .giveUp hfail hexcuse

theorem tracks_load {s : ℕ} {w : Word} (hop : F.base.At t.ip 4)
    (harg : F.base.At (t.ip + 1) (BitVec.ofNat 32 s)) (hs : s < 2 ^ 30) (hcp : s ≤ t.cp)
    (hcell : t.call (t.cp - s) = some w)
    (hP : P w { t with
      ip := t.ip + 2, sp := t.sp + 1
      stack := Function.update t.stack (t.sp + 1) (some w) }) :
    F.machine.Tracks F.excuse k (pure w) t P := by
  have hdepth := depth_ofNat hs
  rw [← hdepth] at hcp hcell
  rcases F.does_or_fails F.stack (t.sp + 1)
      (fun q hq => does_load (hq.word hop) (hq.word harg) hcp hcell)
      (fun q hq => fails_load (hq.word hop) (hq.word harg) hcp hcell) with hrun | ⟨hfail, hexcuse⟩
  · exact .steps hrun rfl (.pure hP)
  · exact .giveUp hfail hexcuse

theorem fails_numop {p : Program} {op : NumOp} {a b : Word} (hw : op.eval a b = none)
    (hop : p.At t.ip (instrInfo op.instr).opcode) (ht : Operands t a b) :
    FailsWith p t .divZero := by
  have hb : (op = .slash ∨ op = .percent) ∧ b = 0 := by
    cases op <;> simp_all [NumOp.eval]
  obtain ⟨hdiv, rfl⟩ := hb
  rcases hdiv with rfl | rfl
  · exact .of_run hop rfl (instrDivide_zero (by exact ht.right) ht.sp)
  · exact .of_run hop rfl (instrDivide_zero (by exact ht.right) ht.sp)

/-- The instruction of an operator, with its operands on the stack. -/
theorem tracks_numop {op : NumOp} {a b : Word} (hop : F.base.At t.ip (instrInfo op.instr).opcode)
    (ht : Operands t a b)
    (hP : ∀ w, op.eval a b = some w → P w { t with
      ip := t.ip + 1, sp := t.sp - 1
      stack := Function.update t.stack (t.sp - 1) (some w) }) :
    F.machine.Tracks F.excuse k (op.sem a b) t P := by
  rw [NumOp.sem]
  cases hw : op.eval a b with
  | some w =>
      have hrun := F.does fun q hq => does_numop hw (hq.word hop) ht
      exact .steps hrun rfl (.pure (hP w hw))
  | none => exact .fault (F.carries.mono fun q hq => fails_numop hw (hq.word hop) ht)

/-- **The arguments are stored**, the last one first, each in its slot. -/
theorem stores_run {m : ℕ} {ws : List Word} {b : ℕ} (hsp : t.sp = b + ws.length)
    (hstack : ∀ i w, ws[i]? = some w → t.stack (b + 1 + i) = some w)
    (hcode : F.base.Holds t.ip (storeCode ws.length)) (hm : ws.length ≤ m) (hroom : m ≤ t.cp)
    (hsmall : m < 2 ^ 30) :
    ∃ t', F.machine.runs ws.length t t' ∧ t'.ip = t.ip + 2 * ws.length ∧ t'.sp = b ∧
      t'.stack = t.stack ∧ t'.cp = t.cp ∧ t'.printed = t.printed ∧
      (∀ i w, ws[i]? = some w → t'.call (t.cp - i) = some w) ∧
      ∀ i, i + ws.length ≤ t.cp → t'.call i = t.call i := by
  induction ws using List.reverseRecOn generalizing t with
  | nil => exact ⟨t, F.machine.refl t, rfl, hsp, rfl, rfl, rfl, by simp, fun _ _ => rfl⟩
  | append_singleton ws w ih =>
      rw [List.length_append, List.length_singleton] at hsp hcode hm
      have hdepth : depth (BitVec.ofNat 32 ws.length) = ws.length := depth_ofNat (by omega)
      have htop : t.stack t.sp = some w := by
        have hlast := hstack ws.length w (by simp)
        rwa [show b + 1 + ws.length = t.sp by omega] at hlast
      have hcp : depth (elem .store ws.length).arg ≤ t.cp := by
        rw [elem, hdepth]
        omega
      have hstep := F.does fun q hq =>
        does_store (hq.word hcode.opcode) (hq.word (hcode.operand rfl)) hcp htop (by omega)
      rw [elem, hdepth] at hstep
      let t₁ : Flat := { t with
        ip := t.ip + 2, sp := t.sp - 1
        call := Function.update t.call (t.cp - ws.length) (some w) }
      obtain ⟨t', hrun, hip, hsp', hstack', hcp, hprinted, hargs, hcall⟩ := ih (t := t₁)
        (by simp only [t₁]; omega)
        (fun i v hi => hstack i v (by
          rw [List.getElem?_append_left (List.getElem?_eq_some_iff.mp hi).1, hi]))
        hcode.tail (by omega) hroom
      have hlen := Nat.add_comm 1 ws.length
      refine ⟨t', ?_, ?_, hsp', hstack', hcp, hprinted, ?_, ?_⟩
      · rw [List.length_append, List.length_singleton, ← hlen]
        exact F.machine.trans hstep hrun
      · rw [hip, List.length_append, List.length_singleton]
        simp only [t₁]
        ring
      · intro i v hi
        by_cases hlt : i < ws.length
        · rw [List.getElem?_append_left hlt] at hi
          exact hargs i v hi
        · have hlast : i = ws.length := by
            have hbound := (List.getElem?_eq_some_iff.mp hi).1
            rw [List.length_append, List.length_singleton] at hbound
            omega
          subst hlast
          rw [List.getElem?_concat_length] at hi
          rw [hcall _ (by simp only [t₁]; omega), ← hi]
          exact Function.update_self ..
      · intro i hi
        rw [List.length_append, List.length_singleton] at hi
        rw [hcall i (by simp only [t₁]; omega)]
        exact Function.update_of_ne (by omega) ..

end Instructions

/-! ## Expressions -/

/-- The arguments of a call are in the slots of the caller. -/
def ArgsAt (args : List Word) (t : Flat) : Prop :=
  ∀ i w, args[i]? = some w → i ≤ t.cp ∧ t.call (t.cp - i) = some w

section Expressions
variable (F : Family) (limit m k : ℕ) (ft : FuncTable) (junk : Junk)
  (call : String → List Word → Sem (Option Word))

/-- The table knows how many arguments a call takes, there is room for them, and from the
`CALL` instruction on the machine tracks the meaning of the call. -/
structure CallReady (c : Call) : Prop where
  count : callArgCount ft c.callee = c.argCount
  room : c.argCount ≤ m
  tracks : ∀ args t, args.length = c.argCount → F.base.At t.ip 18 →
    F.base.At (t.ip + 1) (callAddr ft junk c.callee) → t.ip + 2 ≤ limit → ArgsAt args t →
    F.machine.Tracks F.excuse k (call c.callee args) t fun v t' =>
      Leaves c.argCount 2 v.toList t t'

/-- The slots of the variables. -/
def SlotsAt (name : String) (pos : String → Option ℕ) : Prop :=
  ∀ x s, pos x = some s → slot ft name x = s ∧ s < 2 ^ 30

variable {F limit m k ft junk call} {name : String} {pos : String → Option ℕ} {ρ : Valuation}

theorem words_storeCode (n : ℕ) : words (storeCode n) = 2 * n := by
  induction n with
  | zero => rfl
  | succ n ih =>
      rw [storeCode, words_cons, ih]
      change 2 + 2 * n = 2 * (n + 1)
      ring

/-- A call, from its arguments on the operand stack. -/
theorem CallReady.tracks_callCode {c : Call} (h : CallReady F limit m k ft junk call c)
    (hm : m < 2 ^ 30) {n : ℕ} {ws : List Word} {t₀ t : Flat} (hargs : Leaves m n ws t₀ t)
    (hlen : ws.length = c.argCount) (hroom : m ≤ t₀.cp)
    (hcode : F.base.Holds t.ip (callCode ft junk c.callee))
    (hlimit : t.ip + words (callCode ft junk c.callee) ≤ limit) :
    F.machine.Tracks F.excuse k (call c.callee ws) t fun v t' =>
      Leaves m (n + words (callCode ft junk c.callee)) v.toList t₀ t' := by
  rw [callCode, h.count, ← hlen] at hcode hlimit ⊢
  rw [words_append, words_storeCode] at hlimit ⊢
  obtain ⟨t₁, hrun, hip, hsp, hstack, hcp, hprinted, hcells, hcall⟩ :=
    stores_run hargs.sp hargs.pushed hcode.left (hlen ▸ h.room) (by rw [hargs.cp]; exact hroom) hm
  have hright := hcode.right
  rw [words_storeCode, ← hip] at hright
  have hstored : Leaves m (n + 2 * ws.length) [] t₀ t₁ :=
    hargs.pop hip hsp hstack hcp fun i hi => hcall i (by have := h.room; omega)
  have hslots : ArgsAt ws t₁ := by
    intro i w hi
    have hlt := (List.getElem?_eq_some_iff.mp hi).1
    have hfits := h.room
    rw [hcp, hargs.cp]
    refine ⟨by omega, ?_⟩
    rw [← hargs.cp]
    exact hcells i w hi
  have hbound : t₁.ip + 2 ≤ limit := by
    rw [hip]
    exact hlimit
  have htrack := h.tracks ws t₁ hlen hright.opcode (hright.operand rfl) hbound hslots
  refine .steps hrun hprinted (htrack.mono fun v t' hv => ?_)
  exact hstored.trans (hv.mono h.room)

mutual

/-- **Expressions.** -/
theorem Expr.tracks (hm : m < 2 ^ 30) (hpos : SlotsAt ft name pos) : ∀ (e : Expr) {t : Flat},
    (∀ c ∈ e.calls, CallReady F limit m k ft junk call c) →
    F.base.Holds t.ip (e.emit ft junk name) → t.ip + words (e.emit ft junk name) ≤ limit →
    Variables m pos ρ t → F.machine.Tracks F.excuse k (e.sem call ρ) t fun w t' =>
      Leaves m (words (e.emit ft junk name)) [w] t t'
  | .unary u, _, hcalls, hcode, hlimit, hvars => u.tracks hm hpos hcalls hcode hlimit hvars
  | .bin u op e, t, hcalls, hcode, hlimit, hvars => by
      rw [Expr.emit, words_append, words_append] at hlimit
      refine (u.tracks hm hpos (fun c hc => hcalls c (List.mem_append_left _ hc)) hcode.left.left
        (by omega) hvars).bind fun a t₁ h₁ => ?_
      have hright := hcode.left.right
      rw [← h₁.ip] at hright
      refine (e.tracks hm hpos (fun c hc => hcalls c (List.mem_append_right _ hc)) hright
        (by rw [h₁.ip]; omega) (hvars.leaves h₁)).bind fun b t₂ h₂ => ?_
      have hboth := h₁.trans h₂
      have hlast := hcode.right
      rw [words_append, ← hboth.ip] at hlast
      refine tracks_numop hlast.opcode hboth.operands fun w _ => ?_
      rw [Expr.emit, words_append, words_append, words_cons, NumOp.elem_width, words_nil]
      exact hboth.apply w

theorem Unary.tracks (hm : m < 2 ^ 30) (hpos : SlotsAt ft name pos) : ∀ (u : Unary) {t : Flat},
    (∀ c ∈ u.calls, CallReady F limit m k ft junk call c) →
    F.base.Holds t.ip (u.emit ft junk name) → t.ip + words (u.emit ft junk name) ≤ limit →
    Variables m pos ρ t → F.machine.Tracks F.excuse k (u.sem call ρ) t fun w t' =>
      Leaves m (words (u.emit ft junk name)) [w] t t'
  | .call g args, t, hcalls, hcode, hlimit, hvars => by
      rw [Unary.emit, words_append] at hlimit
      refine (args.tracks hm hpos (fun c hc => hcalls c (List.mem_append_left _ hc)) hcode.left
        (by omega) hvars).bind fun ws t₁ h₁ => ?_
      obtain ⟨h₁, hlen⟩ := h₁
      have hright := hcode.right
      rw [← h₁.ip] at hright
      have hready := hcalls ⟨g, args.count, true⟩ (List.mem_append_right _ List.mem_cons_self)
      have hbound : t₁.ip + words (callCode ft junk g) ≤ limit := by
        rw [h₁.ip, Nat.add_assoc]
        exact hlimit
      refine (hready.tracks_callCode hm h₁ hlen hvars.room hright hbound).bind fun v t₂ h₂ => ?_
      rw [← words_append] at h₂
      cases v with
      | none => exact .undefined
      | some w => exact .pure h₂
  | .var x, t, _, hcode, _, hvars => by
      rw [Unary.sem]
      cases hx : ρ x with
      | none => exact .undefined
      | some w =>
          obtain ⟨s, hs, -, hle, hcell⟩ := hvars.cell x w hx
          obtain ⟨hslot, hlt⟩ := hpos x s hs
          rw [Unary.emit, hslot] at hcode ⊢
          exact tracks_load hcode.opcode (hcode.operand rfl) hlt hle hcell (.push m 2 w t)
  | .lit n, t, _, hcode, _, _ => tracks_push hcode.opcode (hcode.operand rfl) (.push m 2 n t)
  | .paren e, _, hcalls, hcode, hlimit, hvars => e.tracks hm hpos hcalls hcode hlimit hvars

/-- The arguments are pushed in their order. -/
theorem Args.tracks (hm : m < 2 ^ 30) (hpos : SlotsAt ft name pos) : ∀ (args : Args) {t : Flat},
    (∀ c ∈ args.calls, CallReady F limit m k ft junk call c) →
    F.base.Holds t.ip (args.emit ft junk name) → t.ip + words (args.emit ft junk name) ≤ limit →
    Variables m pos ρ t → F.machine.Tracks F.excuse k (args.sem call ρ) t fun ws t' =>
      Leaves m (words (args.emit ft junk name)) ws t t' ∧ ws.length = args.count
  | .empty, t, _, _, _, _ => .pure ⟨.refl m t, rfl⟩
  | .last e, _, hcalls, hcode, hlimit, hvars =>
      (e.tracks hm hpos hcalls hcode hlimit hvars).bind fun _ _ h => .pure ⟨h, rfl⟩
  | .cons e args, t, hcalls, hcode, hlimit, hvars => by
      rw [Args.emit, words_append] at hlimit
      refine (e.tracks hm hpos (fun c hc => hcalls c (List.mem_append_left _ hc)) hcode.left
        (by omega) hvars).bind fun w t₁ h₁ => ?_
      have hright := hcode.right
      rw [← h₁.ip] at hright
      refine (args.tracks hm hpos (fun c hc => hcalls c (List.mem_append_right _ hc)) hright
        (by rw [h₁.ip]; omega) (hvars.leaves h₁)).bind fun ws t₂ h₂ => ?_
      refine .pure ⟨?_, ?_⟩
      · rw [Args.emit, words_append]
        exact h₁.trans h₂.1
      · rw [List.length_cons, h₂.2, Args.count]

end

/-- **Conditions** leave their operands, and the jump that follows compares them. -/
theorem Cond.tracks (hm : m < 2 ^ 30) (hpos : SlotsAt ft name pos) {c : Cond} {t : Flat}
    (hcalls : ∀ d ∈ c.calls, CallReady F limit m k ft junk call d)
    (hcode : F.base.Holds t.ip (c.operands ft junk name))
    (hlimit : t.ip + words (c.operands ft junk name) ≤ limit) (hvars : Variables m pos ρ t) :
    F.machine.Tracks F.excuse k (c.sem call ρ) t fun go t' => ∃ a b,
      Leaves m (words (c.operands ft junk name)) [a, b] t t' ∧
        go = c.op.holds a.toInt b.toInt := by
  rw [Cond.operands, words_append] at hlimit
  refine (c.left.tracks hm hpos (fun d hd => hcalls d (List.mem_append_left _ hd)) hcode.left
    (by omega) hvars).bind fun a t₁ h₁ => ?_
  have hright := Program.Holds.right hcode
  rw [← h₁.ip] at hright
  refine (c.right.tracks hm hpos (fun d hd => hcalls d (List.mem_append_right _ hd)) hright
    (by rw [h₁.ip]; omega) (hvars.leaves h₁)).bind fun b t₂ h₂ => ?_
  refine .pure ⟨a, b, ?_, rfl⟩
  rw [Cond.operands, words_append]
  exact h₁.trans h₂

end Expressions

end Bispe
