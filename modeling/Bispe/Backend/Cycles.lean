import Bispe.Backend.Refinement

/-!
# Cycle boundaries

The outro writes the held lines back and the next entry loads others.  The plain
machine has no such steps: its state stays related to that of the interpreter
across them, so where the boundaries of the cycles lie cannot be observed.

## Main definitions

* `SavedSim` — the relation to the plain machine between two cycles.
* `Enterable`, `plainView` — a state a cycle can start from, as a plain state.
* `Clean` — a program that never leaves its code and reads no undefined word.
* `Follows` — the loop of cycles is at a point of the run of the plain machine.
-/

namespace Bispe

open Effect Chaining

/-- The interpreter between two cycles and the plain machine are at the same point
of a run. -/
structure SavedSim (b : Build) (ctx : Ctx) (s : St) (t : Flat) : Prop where
  observed : Observed s t
  ip : s.instrPtr = ctx.codeSegBp + 4 * t.ip
  sp : s.stackPtr = ctx.stackSegBp + 4 * t.sp
  stack : Stored b s.mem ctx.stackSegBp t.sp t.stack
  cp : s.callPtr = ctx.callSegBp + 4 * t.cp
  call : Stored b s.mem ctx.callSegBp t.cp t.call

section Boundary
variable {b : Build} {ctx : Ctx} {m₀ : ℤ → Word}

/-- **The entry** loads one line of each segment. -/
theorem bispeCycleEntry_sim (hc : ctx.Aligned) (hd : ctx.Apart) {s : St} {t : Flat}
    (hs : SavedInside ctx m₀ s) (hst : SavedSim b ctx s t) :
    ∃ s', bispeCycleEntry b ctx s = .ok () s' ∧ Inside ctx m₀ s' ∧ Sim b ctx m₀ s' t := by
  obtain ⟨s', hrun, hin⟩ := bispeCycleEntry_keeps (b := b) hc hs
  have hbp := hc.call_bp
  have hlo := hs.call.lo
  have hrun' := bispeCycleEntry_run b ctx s (by omega)
  rw [hrun] at hrun'
  injection hrun' with _ hs'
  subst hs'
  have hquiet := ((decryptLog_quiet b .code (16 * (s.instrPtr / 16))).append
    (decryptLog_quiet b .stack (16 * (s.stackPtr / 16)))).append
    (decryptLog_quiet b .call (16 * (s.callPtr / 16)))
  have hk : 16 * (s.callPtr / 16) / 16 = s.callPtr / 16 := by omega
  refine ⟨_, hrun, hin, {
    observed := hst.observed.quiet hquiet (by simp only [List.append_assoc]) rfl rfl rfl rfl rfl rfl
    ip := hst.ip
    instr := fun h => by
      simp only [hst.ip]
      exact hs.contained.code_line hc hd b h
    sp := hst.sp
    stack := hst.stack.holds _
    cp := hst.cp
    call := by
      simp only [hk]
      exact hst.call.holds _ }⟩

theorem saveCallLine_holds (hb : b.Inverts) (hc : ctx.Aligned) {s : St} {cp : ℕ}
    {cells : ℕ → Option Word} (hcp : s.curCallPtr = ctx.callSegBp + 4 * cp)
    (hline : LineInside ctx.callSegBp s.curCallPtr s.curCallLine) (hlt : 4 * cp < ctx.callSegSize)
    (h : Holds b s.mem (s.curCallLine / 16) s.rcallLine ctx.callSegBp cp cells) :
    ∃ mem' es, saveCallLine b s = .ok () { s with mem := mem', log := s.log ++ es } ∧
      Quiet es ∧ Stored b mem' ctx.callSegBp cp cells ∧
      ∀ j, 16 * j < ctx.callSegBp ∨ ctx.callSegBp + ctx.callSegSize ≤ 16 * j →
        lines mem' j = lines s.mem j := by
  rw [hcp] at hline
  obtain ⟨mem', es, hrun, hrest⟩ := flush_holds hb hc hline hlt h
  rw [← hcp] at hrun
  exact ⟨mem', es, (bind_ok (run_get s)).trans hrun, hrest⟩

/-- **The outro** writes the held lines back. -/
theorem bispeCycleOutro_sim (hb : b.Inverts) (hc : ctx.Aligned) (hd : ctx.Apart) {s : St}
    {t : Flat} (hs : Inside ctx m₀ s) (hst : Sim b ctx m₀ s t) :
    ∃ s', bispeCycleOutro b s = .ok () s' ∧ SavedInside ctx m₀ s' ∧ SavedSim b ctx s' t := by
  obtain ⟨s', hrun, hin⟩ := bispeCycleOutro_keeps (b := b) hc hs
  have hbp := hc.stack_bp
  have hcbp := hc.call_bp
  have hcsz := hc.call_size
  have hlt := hst.stack_lt hs
  have hclt := hst.call_lt hs
  have hapart := hd.stack_call
  have hsp := hst.sp
  -- the stack line first
  have hmem₁ : lines (storeLine s.mem (16 * (s.curStackPtr / 16))
      (b.mode.link s.rstackLine (lines s.mem (s.curStackPtr / 16 - 1)))) =
      b.mode.rechain 0 (b.mode.link s.rstackLine (lines s.mem (s.curStackPtr / 16 - 1)))
        (s.curStackPtr / 16) (lines s.mem) := lines_storeLine ..
  have hstack₁ := hst.stack.stored hb (n := 0) (by rw [hsp]; omega) hmem₁
  have hcall₁ := hst.call.frame (s.curStackPtr / 16) (s.curStackPtr / 16)
    (fun j hj => by rw [hmem₁, Mode.rechain, Function.update_of_ne (by omega)])
    (by omega) hcbp
  -- then the chain of call lines
  obtain ⟨mem', es, hchain, hquiet, hcall₂, hmem⟩ := saveCallLine_holds hb hc
    (s := { s with
      mem := storeLine s.mem (16 * (s.curStackPtr / 16))
        (b.mode.link s.rstackLine (lines s.mem (s.curStackPtr / 16 - 1)))
      log := s.log ++ encryptLog b .stack (16 * (s.curStackPtr / 16)) })
    hst.cp hs.line hclt hcall₁
  have hstack₂ := hstack₁.frame (ctx.callSegBp / 16) ((ctx.callSegBp + ctx.callSegSize) / 16 - 1)
    (fun j hj => hmem j (by omega)) (by omega) hbp
  have hrun' := (bind_ok (f := fun _ => do saveCallLine b; saveStatePtrs)
    (saveStackLine_run b s)).trans (bind_ok hchain)
  have hs' := hrun.symm.trans hrun'
  injection hs' with _ hs'
  subst hs'
  exact ⟨_, hrun, hin, {
    observed := hst.observed.quiet ((encryptLog_quiet b .stack _).append hquiet)
      (List.append_assoc ..) rfl rfl rfl rfl rfl rfl
    ip := hst.ip
    sp := hst.sp
    stack := hstack₂
    cp := hst.cp
    call := hcall₂ }⟩

end Boundary

/-! ## Refinement -/

/-- A cycle can be entered: the saved pointers lie in their segments. -/
structure Enterable (ctx : Ctx) (s : St) : Prop where
  instr : ctx.InCode s.instrPtr
  stack : PtrInside ctx.stackSegBp ctx.stackSegSize s.stackPtr
  call : PtrInside ctx.callSegBp ctx.callSegSize s.callPtr
  print : PtrInside ctx.printSegBp ctx.printSegSize s.printPtr
  log : s.log = []

/-- The words up to position `top`, decrypted; the others are undefined. -/
def plainCells (b : Build) (mem : ℤ → Word) (bp : ℤ) (top : ℕ) : ℕ → Option Word :=
  fun i => if i ≤ top then some (wordAt (b.mode.decode (lines mem)) (bp + 4 * i)) else none

/-- The state between two cycles as a state of the plain machine. -/
def plainView (b : Build) (ctx : Ctx) (s : St) : Flat where
  ip := ((s.instrPtr - ctx.codeSegBp) / 4).toNat
  sp := ((s.stackPtr - ctx.stackSegBp) / 4).toNat
  cp := ((s.callPtr - ctx.callSegBp) / 4).toNat
  stack := plainCells b s.mem ctx.stackSegBp ((s.stackPtr - ctx.stackSegBp) / 4).toNat
  call := plainCells b s.mem ctx.callSegBp ((s.callPtr - ctx.callSegBp) / 4).toNat
  haltFlag := s.haltFlag
  errorCode := s.errorCode
  trace := []
  printed := []
  supply := []

section Refinement
variable {b : Build} {ctx : Ctx}

theorem plainCells_stored (b : Build) (mem : ℤ → Word) (bp : ℤ) (top : ℕ) :
    Stored b mem bp top (plainCells b mem bp top) := by
  intro i hi w hw
  rw [plainCells, if_pos hi] at hw
  exact Option.some.inj hw

theorem plainView_sim (hc : ctx.Aligned) {s : St} (hs : Enterable ctx s) :
    SavedInside ctx s.mem s ∧ SavedSim b ctx s (plainView b ctx s) := by
  obtain ⟨⟨w, hw, hlt⟩, ⟨hal, hlo, hhi⟩, ⟨hcal, hclo, hchi⟩, hprint, hlog⟩ := hs
  have hbp := hc.stack_bp
  have hcbp := hc.call_bp
  have hcode := hc.code_bp
  refine ⟨⟨⟨by simp [hlog], fun _ _ => rfl⟩, hprint, by omega, ⟨hal, hlo, hhi⟩,
    ⟨hcal, hclo, hchi⟩⟩, ?_⟩
  exact {
    observed := ⟨rfl, rfl, by rw [hlog]; rfl, by rw [hlog]; rfl⟩
    ip := by simp only [plainView]; omega
    sp := by simp only [plainView]; omega
    stack := plainCells_stored _ _ _ _
    cp := by simp only [plainView]; omega
    call := plainCells_stored _ _ _ _ }

/-- The two machines stop alike, or both go on, and the same can be observed. -/
def SameOutcome : EStateM.Result Stop St Ctl → EStateM.Result FlatStop Flat Ctl → Prop
  | .ok c s, .ok c' t => ExitRel c c' ∧ Observed s t
  | .error e s, .error e' t => ∃ err, e = .error err ∧ e' = .error err ∧ Observed s t
  | _, _ => False

theorem Matches.sameOutcome {m₀ : ℤ → Word} {y : F Ctl} {t : Flat}
    {r : EStateM.Result Stop St Ctl} (h : Matches b ctx m₀ ExitRel y t r) :
    ∃ ws, SameOutcome r (y { t with supply := ws }) := by
  cases r with
  | ok c s' =>
      obtain ⟨c', t', hcc, hst', ws, hws, -⟩ := h
      refine ⟨ws ++ [], ?_⟩
      rw [hws]
      exact ⟨hcc, ⟨hst'.observed.halt, hst'.observed.error, hst'.observed.trace,
        hst'.observed.printed⟩⟩
  | error e s' =>
      obtain ⟨err, t', he, hobs, ws, hws, -⟩ := h
      refine ⟨ws ++ [], ?_⟩
      rw [hws]
      exact ⟨err, he, rfl, ⟨hobs.halt, hobs.error, hobs.trace, hobs.printed⟩⟩

theorem smallCtx_aligned : (smallCtx 32).Aligned := createRuntimeCtx_aligned _ (by decide) _

/-- The buffers are 128 bytes apart. -/
theorem smallCtx_apart_of_le {size : BitVec 64} (hsize : size.toNat % 16 = 0)
    (hle : 16 ≤ size.toNat ∧ size.toNat ≤ 128) : (smallCtx size).Apart := by
  have hcode : (smallCtx size).codeSegBp = 16 ∧ (smallCtx size).codeSegSize ≤ 112 ∧
      16 ∣ (smallCtx size).codeSegSize := by
    refine ⟨rfl, ?_⟩
    simp only [smallCtx, createRuntimeCtx, smallInvoke, Build.ivSize, BitVec.toNat_sub,
      BitVec.toNat_ofNat]
    omega
  have hstack : (smallCtx size).stackSegBp = 144 ∧ (smallCtx size).stackSegSize = 16 :=
    ⟨rfl, rfl⟩
  have hcall : (smallCtx size).callSegBp = 272 ∧ (smallCtx size).callSegSize = 16 := ⟨rfl, rfl⟩
  have hprint : (smallCtx size).printSegBp = 384 ∧ (smallCtx size).printSegSize = 16 :=
    ⟨rfl, rfl⟩
  refine ⟨by omega, fun a hlo hhi => ?_, by omega, by omega, by omega⟩
  unfold Ctx.InData
  omega

theorem smallCtx_apart : (smallCtx 32).Apart := smallCtx_apart_of_le (by decide) (by decide)

theorem keyCipher_build_inverts (key : Word) : Build.Inverts (some (keyCipher key)) := by
  rintro c hc x
  obtain rfl := Option.some.inj hc
  exact keyCipher_inverts key x

theorem start_enterable : Enterable (smallCtx 32) (startState (smallCtx 32) printState) where
  instr := ⟨0, rfl, by decide⟩
  stack := ⟨by decide, by decide, by decide⟩
  call := ⟨by decide, by decide, by decide⟩
  print := ⟨by decide, by decide, by decide⟩
  log := rfl

end Refinement

/-- A program that, whatever its segments hold at the start, neither leaves its code
nor reads an undefined word. -/
def Clean (p : Program) : Prop :=
  ∀ n t, dispatchLoop (flatMacros p) n Flat.initial ≠ .error .outside t ∧
    dispatchLoop (flatMacros p) n Flat.initial ≠ .error .undef t

section Runs
variable {b : Build} {ctx : Ctx} {m₀ : ℤ → Word}

theorem Sim.resupply {s : St} {t : Flat} (h : Sim b ctx m₀ s t) (ws : List Word) :
    Sim b ctx m₀ s { t with supply := ws } where
  observed := ⟨h.observed.halt, h.observed.error, h.observed.trace, h.observed.printed⟩
  ip := h.ip
  instr := h.instr
  sp := h.sp
  stack := h.stack
  cp := h.cp
  call := h.call

/-- Where no undefined word is read, the supply is not used. -/
theorem Supplies.run {α : Type} {y : F α} {t : Flat} {r : EStateM.Result FlatStop Flat α}
    (h : Supplies y t r) (ht : t.supply = []) (hundef : ∀ t', y t ≠ .error .undef t') :
    y t = resupply [] r := by
  obtain ⟨ws, hws, hne⟩ := h
  have heq : { t with supply := [] } = t := by rw [← ht]
  by_cases hnil : ws = []
  · subst hnil
    rw [← hws [], ← heq]
    rfl
  · obtain ⟨t', ht'⟩ := hne hnil
    exact (hundef t' (heq ▸ ht')).elim

/-- The relation to the plain machine in a phase. -/
def PhaseSim (b : Build) (ctx : Ctx) (m₀ : ℤ → Word) : Phase → St → Flat → Prop
  | .idle, s, t => SavedInside ctx m₀ s ∧ SavedSim b ctx s t
  | _, s, t => Inside ctx m₀ s ∧ Sim b ctx m₀ s t

/-- The loop of cycles is at the point of the run of the plain machine that has
executed `k` instructions. -/
inductive Follows (b : Build) (ctx : Ctx) (m₀ : ℤ → Word) (k : ℕ) : Phase → St → Prop
  | running {ph : Phase} {s : St} {t : Flat} :
      dispatchLoop (flatMacros (programOf b ctx m₀)) k Flat.initial = .ok .next t →
      t.supply = [] → t.haltFlag = false → PhaseSim b ctx m₀ ph s t → Follows b ctx m₀ k ph s
  | finishing {j : ℕ} {s : St} {t t' : Flat} : k = j + 1 →
      dispatchLoop (flatMacros (programOf b ctx m₀)) j Flat.initial = .ok .next t' →
      dispatchLoop (flatMacros (programOf b ctx m₀)) k Flat.initial = .ok .finish t →
      t.haltFlag = true → Inside ctx m₀ s → Sim b ctx m₀ s t → Follows b ctx m₀ k .outro s
  | stopped {s : St} {r : EStateM.Result FlatStop Flat Ctl} :
      dispatchLoop (flatMacros (programOf b ctx m₀)) k Flat.initial = r →
      (∀ t, r ≠ .ok .next t) → Observed s (stateOf r) → s.haltFlag = true →
      Follows b ctx m₀ k .idle s

/-- Between two instructions there are at most an outro and an entry. -/
def Phase.rank : Phase → ℕ
  | .outro => 0
  | .idle => 1
  | .dispatch => 2

/-- An invocation starts where the plain machine does. -/
theorem start_phaseSim (hc : ctx.Aligned) (s : St) :
    PhaseSim b ctx s.mem .idle (startState ctx s) Flat.initial where
  left := (start_safe hc).2 rfl
  right := {
    observed := ⟨rfl, rfl, rfl, rfl⟩
    ip := by simp [startState, Flat.initial]
    sp := by simp [startState, Flat.initial]
    stack := by simp [Stored, Flat.initial]
    cp := by simp [startState, Flat.initial]
    call := by simp [Stored, Flat.initial] }

theorem start_follows (hc : ctx.Aligned) (s : St) :
    Follows b ctx s.mem 0 .idle (startState ctx s) :=
  .running rfl rfl rfl (start_phaseSim hc s)

theorem clearRegs_phaseSim (regs : CalleeRegs) {s : St} {t : Flat}
    (h : PhaseSim b ctx m₀ .idle s t) : PhaseSim b ctx m₀ .idle (clearRegs regs s) t :=
  ⟨{ h.1 with }, { h.2 with
    observed := ⟨h.2.observed.halt, h.2.observed.error, h.2.observed.trace, h.2.observed.printed⟩ }⟩

theorem clearRegs_observed (regs : CalleeRegs) {s : St} {t : Flat} (h : Observed s t) :
    Observed (clearRegs regs s) t := ⟨h.halt, h.error, h.trace, h.printed⟩

/-- The configuration after one phase is followed further, and time has passed. -/
def Follows.Advances (b : Build) (ctx : Ctx) (m₀ : ℤ → Word) (k : ℕ) (ph : Phase)
    (c : Phase × St) : Prop :=
  ∃ k', Follows b ctx m₀ k' c.1 c.2 ∧ (¬ Halted c → 3 * k + ph.rank + 1 ≤ 3 * k' + c.1.rank)

theorem entry_advances (hc : ctx.Aligned) (hd : ctx.Apart) (regs : CalleeRegs) {k : ℕ} {s : St}
    {t : Flat} (hloop : dispatchLoop (flatMacros (programOf b ctx m₀)) k Flat.initial = .ok .next t)
    (hsup : t.supply = []) (hflag : t.haltFlag = false) (hsim : PhaseSim b ctx m₀ .idle s t) :
    Follows.Advances b ctx m₀ k .idle (nextPhase b ctx regs (.idle, s)) := by
  obtain ⟨s', hrun, hs', hst'⟩ := bispeCycleEntry_sim hc hd hsim.1 hsim.2
  have hstep : phaseStep b ctx .idle s = .ok .dispatch s' := bind_ok hrun
  have hnext : nextPhase b ctx regs (.idle, s) = (.dispatch, s') := by
    simp only [nextPhase, hstep]
  rw [hnext]
  exact ⟨k, .running hloop hsup hflag ⟨hs', hst'⟩, fun _ => le_refl _⟩

theorem outro_advances (hb : b.Inverts) (hc : ctx.Aligned) (hd : ctx.Apart) (regs : CalleeRegs)
    {k : ℕ} {s : St} {t : Flat}
    (hloop : dispatchLoop (flatMacros (programOf b ctx m₀)) k Flat.initial = .ok .next t)
    (hsup : t.supply = []) (hflag : t.haltFlag = false) (hsim : PhaseSim b ctx m₀ .outro s t) :
    Follows.Advances b ctx m₀ k .outro (nextPhase b ctx regs (.outro, s)) := by
  obtain ⟨s', hrun, hs', hst'⟩ := bispeCycleOutro_sim hb hc hd hsim.1 hsim.2
  have hstep : phaseStep b ctx .outro s = .ok .idle s' := bind_ok hrun
  have hnext : nextPhase b ctx regs (.outro, s) = (.idle, clearRegs regs s') := by
    simp only [nextPhase, hstep]
  rw [hnext]
  exact ⟨k, .running hloop hsup hflag (clearRegs_phaseSim regs ⟨hs', hst'⟩), fun _ => le_refl _⟩

theorem dispatch_advances (hb : b.Inverts) (hc : ctx.Aligned) (hd : ctx.Apart)
    (hclean : Clean (programOf b ctx m₀)) (regs : CalleeRegs) {k : ℕ} {s : St} {t : Flat}
    (hloop : dispatchLoop (flatMacros (programOf b ctx m₀)) k Flat.initial = .ok .next t)
    (hsup : t.supply = []) (hflag : t.haltFlag = false) (hsim : PhaseSim b ctx m₀ .dispatch s t) :
    Follows.Advances b ctx m₀ k .dispatch (nextPhase b ctx regs (.dispatch, s)) := by
  have hsimul : Simulates b ctx m₀ ExitRel _ _ := dispatch_simulates hb hc hd
  have hk := hsimul.keeps s hsim.1
  have hsnoc := dispatchLoop_snoc hloop
  have hundef (t' : Flat) : dispatch (flatMacros (programOf b ctx m₀)) t ≠ .error .undef t' :=
    fun h => (hclean (k + 1) t').2 (hsnoc.trans h)
  rcases hsimul.run s t hsim.1 hsim.2 with hm | ⟨-, t', hout⟩
  · cases hds : dispatch (macros b ctx) s with
    | error e s' =>
        rw [hds] at hm
        obtain ⟨e', t', rfl, hobs, hy⟩ := hm
        have hloop' := hsnoc.trans (hy.run hsup hundef)
        have hstep : phaseStep b ctx .dispatch s = .error (.error e') s' := bind_error hds
        have hnext : nextPhase b ctx regs (.dispatch, s) = (.idle, clearRegs regs s') := by
          simp only [nextPhase, hstep]
        have hflag' : (clearRegs regs s').haltFlag = true := by
          rw [hds] at hk
          exact hk.2.1
        rw [hnext]
        refine ⟨k + 1, .stopped hloop' (by simp [resupply]) ?_ hflag',
          fun hne => (hne ⟨rfl, hflag'⟩).elim⟩
        exact ⟨hobs.halt, hobs.error, hobs.trace, hobs.printed⟩
    | ok c s' =>
        rw [hds] at hm hk
        obtain ⟨c', t', hcc, hst', hy⟩ := hm
        have hrun := hy.run hsup hundef
        have hloop' := hsnoc.trans hrun
        have hexit := dispatch_flat_exit hrun
        cases c with
        | next =>
            obtain rfl : c' = .next := by simpa [ExitRel] using hcc
            have hstep : phaseStep b ctx .dispatch s = .ok .dispatch s' := bind_ok hds
            have hnext : nextPhase b ctx regs (.dispatch, s) = (.dispatch, s') := by
              simp only [nextPhase, hstep]
            have hflag' : t'.haltFlag = false := by simpa [hflag] using hexit
            rw [hnext]
            refine ⟨k + 1, .running hloop' rfl hflag' ⟨hk.1, hst'.resupply []⟩, fun _ => ?_⟩
            simp only [Phase.rank]
            omega
        | cycleEnd =>
            obtain rfl : c' = .next := by simpa [ExitRel] using hcc
            have hstep : phaseStep b ctx .dispatch s = .ok .outro s' := bind_ok hds
            have hnext : nextPhase b ctx regs (.dispatch, s) = (.outro, s') := by
              simp only [nextPhase, hstep]
            have hflag' : t'.haltFlag = false := by simpa [hflag] using hexit
            rw [hnext]
            refine ⟨k + 1, .running hloop' rfl hflag' ⟨hk.1, hst'.resupply []⟩, fun _ => ?_⟩
            simp only [Phase.rank]
            omega
        | finish =>
            obtain rfl : c' = .finish := by simpa [ExitRel] using hcc
            have hstep : phaseStep b ctx .dispatch s = .ok .outro s' := bind_ok hds
            have hnext : nextPhase b ctx regs (.dispatch, s) = (.outro, s') := by
              simp only [nextPhase, hstep]
            have hflag' : t'.haltFlag = true := by simpa using hexit
            rw [hnext]
            refine ⟨k + 1, .finishing rfl hloop hloop' hflag' hk.1 (hst'.resupply []), fun _ => ?_⟩
            simp only [Phase.rank]
            omega
  · exact ((hclean (k + 1) _).1 (hsnoc.trans (hout.run hsup hundef))).elim

/-- **One phase follows the plain machine.** -/
theorem Follows.next (hb : b.Inverts) (hc : ctx.Aligned) (hd : ctx.Apart)
    (hclean : Clean (programOf b ctx m₀)) (regs : CalleeRegs) {k : ℕ} {ph : Phase} {s : St}
    (h : Follows b ctx m₀ k ph s) (hhalt : ¬ Halted (ph, s)) :
    Follows.Advances b ctx m₀ k ph (nextPhase b ctx regs (ph, s)) := by
  cases h with
  | stopped hloop hr hobs hflag => exact (hhalt ⟨rfl, hflag⟩).elim
  | finishing _ _ hloop hflag hs hst =>
      obtain ⟨s', hrun, hs', hst'⟩ := bispeCycleOutro_sim hb hc hd hs hst
      have hstep : phaseStep b ctx .outro s = .ok .idle s' := bind_ok hrun
      have hnext : nextPhase b ctx regs (.outro, s) = (.idle, clearRegs regs s') := by
        simp only [nextPhase, hstep]
      have hflag' : (clearRegs regs s').haltFlag = true := hst'.observed.halt.trans hflag
      rw [hnext]
      refine ⟨k, .stopped hloop (by simp) (clearRegs_observed regs hst'.observed) hflag', ?_⟩
      exact fun hne => (hne ⟨rfl, hflag'⟩).elim
  | running hloop hsup hflag hsim =>
      cases ph with
      | idle => exact entry_advances hc hd regs hloop hsup hflag hsim
      | dispatch => exact dispatch_advances hb hc hd hclean regs hloop hsup hflag hsim
      | outro => exact outro_advances hb hc hd regs hloop hsup hflag hsim

/-- **The loop of cycles follows the plain machine**, and does not fall behind. -/
theorem startInterpreter_follows (hb : b.Inverts) (hc : ctx.Aligned) (hd : ctx.Apart)
    (hclean : Clean (programOf b ctx m₀)) (regs : CalleeRegs) (n m : ℕ) {k : ℕ} {c : Phase × St}
    (h : Follows b ctx m₀ k c.1 c.2) (hm : ¬ Halted c → m + 1 ≤ 3 * k + c.1.rank) :
    ∃ k', Follows b ctx m₀ k' (startInterpreter b ctx regs n c).1
        (startInterpreter b ctx regs n c).2 ∧
      (¬ Halted (startInterpreter b ctx regs n c) →
        m + n + 1 ≤ 3 * k' + (startInterpreter b ctx regs n c).1.rank) := by
  induction n generalizing m k c with
  | zero => exact ⟨k, h, hm⟩
  | succ n ih =>
      obtain ⟨ph, s⟩ := c
      by_cases hhalt : Halted (ph, s)
      · rw [startInterpreter, if_pos hhalt]
        exact ⟨k, h, fun hne => (hne hhalt).elim⟩
      · rw [startInterpreter, if_neg hhalt]
        have hnext : Follows.Advances b ctx m₀ k ph (nextPhase b ctx regs (ph, s)) :=
          h.next hb hc hd hclean regs hhalt
        obtain ⟨k', hk', hle⟩ := hnext
        have hrank : m + 1 ≤ 3 * k + ph.rank := hm hhalt
        obtain ⟨k'', hk'', hle''⟩ := ih (m + 1) hk' fun hne => by have := hle hne; omega
        exact ⟨k'', hk'', fun hne => by have := hle'' hne; omega⟩

/-- A run of the loop that is not over has not stopped on the plain machine before
its last instruction. -/
theorem Follows.not_stopped {k : ℕ} {c : Phase × St} (h : Follows b ctx m₀ k c.1 c.2)
    (hhalt : ¬ Halted c) : ∃ j t, k ≤ j + 1 ∧
      dispatchLoop (flatMacros (programOf b ctx m₀)) j Flat.initial = .ok .next t := by
  obtain ⟨ph, s⟩ := c
  cases h with
  | running hloop => exact ⟨k, _, by omega, hloop⟩
  | finishing hj hloop => exact ⟨_, _, by omega, hloop⟩
  | stopped _ _ _ hflag => exact (hhalt ⟨rfl, hflag⟩).elim

theorem Follows.observed {k : ℕ} {c : Phase × St} (h : Follows b ctx m₀ k c.1 c.2) :
    Observed c.2 (stateOf (dispatchLoop (flatMacros (programOf b ctx m₀)) k Flat.initial)) := by
  obtain ⟨ph, s⟩ := c
  cases h with
  | running hloop _ _ hsim =>
      rw [hloop]
      cases ph with
      | idle => exact hsim.2.observed
      | dispatch => exact hsim.2.observed
      | outro => exact hsim.2.observed
  | finishing _ _ hloop _ _ hst =>
      rw [hloop]
      exact hst.observed
  | stopped hloop _ hobs _ =>
      rw [hloop]
      exact hobs

/-- When the loop is over the plain machine has stopped. -/
theorem Follows.halted {k : ℕ} {c : Phase × St} (h : Follows b ctx m₀ k c.1 c.2)
    (hhalt : Halted c) (t : Flat) :
    dispatchLoop (flatMacros (programOf b ctx m₀)) k Flat.initial ≠ .ok .next t := by
  obtain ⟨ph, s⟩ := c
  obtain ⟨rfl, hflag⟩ := hhalt
  cases h with
  | running hloop _ hflag' hsim =>
      have hsame := hsim.2.observed.halt
      rw [hflag'] at hsame
      exact (Bool.false_ne_true (hsame.symm.trans hflag)).elim
  | stopped hloop hr _ _ => rw [hloop]; exact hr t

end Runs

section Invariance
variable {b b' : Build} {ctx ctx' : Ctx} {m₀ m₀' : ℤ → Word}

/-- Two runs of one program that are both over have the same output. -/
theorem Follows.same_end (hprog : programOf b ctx m₀ = programOf b' ctx' m₀') {k k' : ℕ}
    {c c' : Phase × St} (h : Follows b ctx m₀ k c.1 c.2) (h' : Follows b' ctx' m₀' k' c'.1 c'.2)
    (hhalt : Halted c) (hhalt' : Halted c') :
    printed c.2.log = printed c'.2.log ∧ c.2.errorCode = c'.2.errorCode := by
  have hsame := dispatchLoop_unique rfl (h.halted hhalt)
    rfl (hprog ▸ h'.halted hhalt')
  have hobs := h.observed
  have hobs' := h'.observed
  rw [← hprog, ← hsame] at hobs'
  exact ⟨hobs.printed.trans hobs'.printed.symm, hobs.error.trans hobs'.error.symm⟩

/-- After as many phases as the plain machine needs, a run is over. -/
theorem Follows.over {n k : ℕ} {c : Phase × St} {r : EStateM.Result FlatStop Flat Ctl}
    (h : Follows b ctx m₀ k c.1 c.2) (hrank : ¬ Halted c → n + 1 ≤ 3 * k + c.1.rank) {l : ℕ}
    (hloop : dispatchLoop (flatMacros (programOf b ctx m₀)) l Flat.initial = r)
    (hr : ∀ t, r ≠ .ok .next t) (hn : 3 * l + 2 ≤ n) : Halted c := by
  by_contra hhalt
  obtain ⟨j, t, hj, hrun⟩ := h.not_stopped hhalt
  have hrank := hrank hhalt
  have hphase : c.1.rank ≤ 2 := by cases c.1 <;> decide
  obtain ⟨m, rfl⟩ := Nat.exists_eq_add_of_le (show l ≤ j by omega)
  exact hr t ((dispatchLoop_stopped hloop hr).symm.trans hrun)

/-- What an outro and the next entry restore: the next instruction, and every word of
the two stacks up to their pointers. -/
structure Restores (b : Build) (ctx : Ctx) (s s' : St) : Prop where
  instr : s'.curInstrPtr = s.curInstrPtr
  line : s'.rinstrLine = s.rinstrLine
  sp : s'.curStackPtr = s.curStackPtr
  stack : ∀ i : ℕ, ctx.stackSegBp + 4 * i ≤ s.curStackPtr →
    wordAt (b.mode.held (lines s'.mem) (s'.curStackPtr / 16) s'.rstackLine)
        (ctx.stackSegBp + 4 * i) =
      wordAt (b.mode.held (lines s.mem) (s.curStackPtr / 16) s.rstackLine) (ctx.stackSegBp + 4 * i)
  cp : s'.curCallPtr = s.curCallPtr
  call : ∀ i : ℕ, ctx.callSegBp + 4 * i ≤ s.curCallPtr →
    wordAt (b.mode.held (lines s'.mem) (s'.curCallLine / 16) s'.rcallLine)
        (ctx.callSegBp + 4 * i) =
      wordAt (b.mode.held (lines s.mem) (s.curCallLine / 16) s.rcallLine) (ctx.callSegBp + 4 * i)

theorem outro_entry_restores (hb : b.Inverts) (hc : ctx.Aligned) (hd : ctx.Apart)
    (regs : CalleeRegs) {s : St} {t : Flat} (hs : Inside ctx m₀ s) (hst : Sim b ctx m₀ s t)
    (hcode : 4 * t.ip < ctx.codeSegSize) :
    ∃ s', nextPhase b ctx regs (nextPhase b ctx regs (.outro, s)) = (.dispatch, s') ∧
      Restores b ctx s s' := by
  -- a plain state in which every word is defined
  have hall : Sim b ctx m₀ s { t with
      stack := fun i => some (wordAt (b.mode.held (lines s.mem) (s.curStackPtr / 16) s.rstackLine)
        (ctx.stackSegBp + 4 * i))
      call := fun i => some (wordAt (b.mode.held (lines s.mem) (s.curCallLine / 16) s.rcallLine)
        (ctx.callSegBp + 4 * i)) } := { hst with
    observed := ⟨hst.observed.halt, hst.observed.error, hst.observed.trace, hst.observed.printed⟩
    stack := fun i _ w hw => Option.some.inj hw
    call := fun i _ w hw => Option.some.inj hw }
  obtain ⟨s₁, hrun₁, hs₁, hst₁⟩ := bispeCycleOutro_sim hb hc hd hs hall
  have hstep₁ : phaseStep b ctx .outro s = .ok .idle s₁ := bind_ok hrun₁
  have hnext₁ : nextPhase b ctx regs (.outro, s) = (.idle, clearRegs regs s₁) := by
    simp only [nextPhase, hstep₁]
  have hidle := clearRegs_phaseSim regs ⟨hs₁, hst₁⟩
  obtain ⟨s₂, hrun₂, hs₂, hst₂⟩ := bispeCycleEntry_sim hc hd hidle.1 hidle.2
  have hstep₂ : phaseStep b ctx .idle (clearRegs regs s₁) = .ok .dispatch s₂ := bind_ok hrun₂
  have hnext₂ : nextPhase b ctx regs (.idle, clearRegs regs s₁) = (.dispatch, s₂) := by
    simp only [nextPhase, hstep₂]
  have hsp := hst.sp
  have hcp := hst.cp
  refine ⟨s₂, by rw [hnext₁, hnext₂], {
    instr := hst₂.ip.trans hst.ip.symm
    line := ?_
    sp := hst₂.sp.trans hst.sp.symm
    stack := fun i hi => hst₂.stack i (show i ≤ t.sp by omega) _ rfl
    cp := hst₂.cp.trans hst.cp.symm
    call := fun i hi => hst₂.call i (show i ≤ t.cp by omega) _ rfl }⟩
  rw [hst₂.instr hcode, hst.instr hcode, hst₂.ip, hst.ip]

/-- Every invocation of a clean program follows the plain machine. -/
theorem invocation_follows (hb : b.Inverts) (hc : ctx.Aligned) (hd : ctx.Apart) (s : St)
    (regs : CalleeRegs) (hclean : Clean (programOf b ctx s.mem)) (n : ℕ) :
    ∃ k, Follows b ctx s.mem k (invocation b ctx regs s n).1 (invocation b ctx regs s n).2 ∧
      (¬ Halted (invocation b ctx regs s n) →
        n + 1 ≤ 3 * k + (invocation b ctx regs s n).1.rank) := by
  have h := startInterpreter_follows hb hc hd hclean regs n 0 (start_follows hc s)
    (c := (.idle, startState ctx s)) (fun _ => le_refl _)
  rwa [Nat.zero_add] at h

/-- Two invocations of a clean program: when one is over, so is the other at some
time, and whatever one prints the other prints too. -/
theorem invocation_catches_up (hb : b.Inverts) (hb' : b'.Inverts) (hc : ctx.Aligned)
    (hc' : ctx'.Aligned) (hd : ctx.Apart) (hd' : ctx'.Apart) (s s' : St) (regs regs' : CalleeRegs)
    (hprog : programOf b ctx s.mem = programOf b' ctx' s'.mem)
    (hclean : Clean (programOf b ctx s.mem)) (n : ℕ) :
    ∃ n', (Halted (invocation b ctx regs s n) → Halted (invocation b' ctx' regs' s' n')) ∧
      printed (invocation b ctx regs s n).2.log <+:
        printed (invocation b' ctx' regs' s' n').2.log := by
  obtain ⟨k, hk, -⟩ := invocation_follows hb hc hd s regs hclean n
  obtain ⟨k', hk', hrank⟩ :=
    invocation_follows hb' hc' hd' s' regs' (hprog ▸ hclean) (3 * k + 2)
  refine ⟨3 * k + 2, fun hhalt => ?_, ?_⟩
  · exact hk'.over hrank rfl (hprog ▸ hk.halted hhalt) (le_refl _)
  · rw [hk.observed.printed, hk'.observed.printed, hprog]
    by_cases hle : k ≤ k'
    · exact dispatchLoop_printed_mono _ hle _
    · have hhalt : Halted (invocation b' ctx' regs' s' (3 * k + 2)) := by
        by_contra hne
        have hphase : (invocation b' ctx' regs' s' (3 * k + 2)).1.rank ≤ 2 := by
          cases (invocation b' ctx' regs' s' (3 * k + 2)).1 <;> decide
        have := hrank hne
        omega
      obtain ⟨m, rfl⟩ := Nat.exists_eq_add_of_le (show k' ≤ k by omega)
      rewrite [dispatchLoop_stopped rfl (hk'.halted hhalt)]
      exact List.prefix_rfl

end Invariance

/-- A program is clean when its run from the initial state finishes. -/
theorem Clean.of_finish {p : Program} {l : ℕ} {t : Flat}
    (hnext : ∀ n < l, ∃ t', dispatchLoop (flatMacros p) n Flat.initial = .ok .next t')
    (hend : dispatchLoop (flatMacros p) l Flat.initial = .ok .finish t) : Clean p := by
  intro n t'
  by_cases hlt : n < l
  · obtain ⟨t₁, hrun⟩ := hnext n hlt
    rw [hrun]
    exact ⟨nofun, nofun⟩
  · obtain ⟨m, rfl⟩ := Nat.exists_eq_add_of_le (show l ≤ n by omega)
    rw [dispatchLoop_stopped hend (fun _ h => nomatch h)]
    exact ⟨nofun, nofun⟩

/-- `PUSH 7`, `PRINT`, `FINISH`. -/
theorem printState_clean :
    Clean (programOf (some (keyCipher 5)) (smallCtx 32) printState.mem) := by
  have hend : ∃ t, dispatchLoop (flatMacros (programOf (some (keyCipher 5)) (smallCtx 32)
    printState.mem)) 3 Flat.initial = .ok .finish t := ⟨_, rfl⟩
  obtain ⟨t, hend⟩ := hend
  refine Clean.of_finish (l := 3) (fun n hn => ?_) hend
  match n with
  | 0 => exact ⟨_, rfl⟩
  | 1 => exact ⟨_, rfl⟩
  | 2 => exact ⟨_, rfl⟩

/-- A context with one instruction in each cycle. -/
def smallSteps : Ctx := { smallCtx 32 with instrPerCycle := 1 }

theorem smallSteps_aligned : smallSteps.Aligned := { smallCtx_aligned with }

theorem smallSteps_apart : smallSteps.Apart := { smallCtx_apart with }

end Bispe
