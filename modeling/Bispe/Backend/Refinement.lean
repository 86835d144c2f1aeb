import Bispe.Backend.Simulation

/-!
# Every instruction is simulated

The simulation of each macro, and from it, by the parametricity of the handlers,
the simulation of an instruction and of a run.

## Main definitions

* `Quiet` — events that cannot be observed.
* `ExitRel` — the exits of a handler on both sides.
* `dispatch_simulates` — every instruction is simulated.
-/

namespace Bispe

open Effect Chaining

/-! ## What can be observed -/

/-- Events that neither execute nor print a word. -/
def Quiet (es : List Event) : Prop := ∀ e ∈ es, e.word? = none ∧ e.value? = none

theorem Quiet.append {es es' : List Event} (h : Quiet es) (h' : Quiet es') : Quiet (es ++ es') :=
  fun e he => (List.mem_append.mp he).elim (h e) (h' e)

theorem Quiet.executed {es : List Event} (h : Quiet es) (log : List Event) :
    executed (log ++ es) = executed log := by
  have : es.filterMap Event.word? = [] := List.filterMap_eq_nil_iff.mpr fun e he => (h e he).1
  rw [Bispe.executed, List.filterMap_append, this, List.append_nil, Bispe.executed]

theorem Quiet.printed {es : List Event} (h : Quiet es) (log : List Event) :
    printed (log ++ es) = printed log := by
  have : es.filterMap Event.value? = [] := List.filterMap_eq_nil_iff.mpr fun e he => (h e he).2
  rw [Bispe.printed, List.filterMap_append, this, List.append_nil, Bispe.printed]

theorem decryptLog_quiet (b : Build) (seg : Seg) (p : ℤ) : Quiet (decryptLog b seg p) := by
  cases b <;> simp [Quiet, decryptLog, Event.word?, Event.value?]

theorem encryptLog_quiet (b : Build) (seg : Seg) (p : ℤ) : Quiet (encryptLog b seg p) := by
  cases b <;> simp [Quiet, encryptLog, Event.word?, Event.value?]

theorem Event.InChain.quiet {seg : Seg} {k l : ℤ} {es : List Event}
    (h : ∀ e ∈ es, e.InChain seg k l) : Quiet es := by
  intro e he
  cases e with
  | fetch p w => exact (h _ he).elim
  | advance p => exact (h _ he).elim
  | print p w => exact (h _ he).elim
  | read seg' p => exact ⟨rfl, rfl⟩
  | write seg' p => exact ⟨rfl, rfl⟩
  | chain d d' => exact ⟨rfl, rfl⟩

/-- Quiet events change nothing that can be observed. -/
theorem Observed.quiet {s s' : St} {t t' : Flat} {es : List Event} (h : Observed s t)
    (hes : Quiet es) (hlog : s'.log = s.log ++ es) (hhalt : s'.haltFlag = s.haltFlag)
    (herr : s'.errorCode = s.errorCode) (hhalt' : t'.haltFlag = t.haltFlag)
    (herr' : t'.errorCode = t.errorCode) (htrace : t'.trace = t.trace)
    (hprinted : t'.printed = t.printed) : Observed s' t' where
  halt := by rw [hhalt, h.halt, hhalt']
  error := by rw [herr, h.error, herr']
  trace := by rw [hlog, hes.executed, h.trace, htrace]
  printed := by rw [hlog, hes.printed, h.printed, hprinted]

/-! ## Lines that other segments leave alone -/

section Frames
variable {ctx : Ctx} {m₀ : ℤ → Word} {s : St}

/-- The code segment, with its init vector, is as it was. -/
theorem Contained.code_line {log : List Event} (hs : Contained ctx m₀ s.mem log) (hc : ctx.Aligned)
    (hd : ctx.Apart) (b : Build)
    {w : ℕ} (hw : 4 * w < ctx.codeSegSize) :
    b.mode.decode (lines s.mem) ((ctx.codeSegBp + 4 * w) / 16) =
      b.mode.decode (lines m₀) ((ctx.codeSegBp + 4 * w) / 16) := by
  have hbp := hc.code_bp
  have hsz := hd.code_size
  have hline (j : ℤ) (hlo : ctx.codeSegBp - 16 ≤ 16 * j)
      (hhi : 16 * j < ctx.codeSegBp + ctx.codeSegSize) : lines s.mem j = lines m₀ j := by
    funext i
    exact hs.frame _ (hd.code _ (by omega) (by omega))
  exact b.mode.decode_congr (hline _ (by omega) (by omega)) (hline _ (by omega) (by omega))

end Frames

/-! ## Macros -/

section Macros
variable {b : Build} {ctx : Ctx} {m₀ : ℤ → Word}

/-- The exits of a handler: the plain machine has no cycle to end. -/
def ExitRel (c c' : Ctl) : Prop := (c = .finish ∧ c' = .finish) ∨ (c ≠ .finish ∧ c' = .next)

/-- A checked jump target on both sides. -/
def TargetRel (ctx : Ctx) (p : ℤ) (p' : ℕ) : Prop :=
  p = ctx.codeSegBp + 4 * p' ∧ 4 * p' < ctx.codeSegSize

theorem setError_matches {α β : Type} {A : α → β → Prop} {s : St} {t u : Flat} {y : F β}
    {e : Err} (hobs : Observed s u) (hy : ∀ rest, y { t with supply := rest } =
      Flat.setError e { u with supply := rest }) :
    Matches b ctx m₀ A y t (setError e s) := by
  refine ⟨e, { u with errorCode := e.code, haltFlag := true }, rfl, ?_, .of_run hy⟩
  exact ⟨rfl, rfl, hobs.trace, hobs.printed⟩

theorem setError_simulates {α β : Type} (A : α → β → Prop) (e : Err) :
    Simulates b ctx m₀ A (setError e) (Flat.setError e) where
  keeps s hs := ⟨by simp, rfl, hs.contained⟩
  escaped _ _ he := he
  run s t _ hst := .inl (setError_matches hst.observed fun _ => rfl)

/-- A word behind the code segment is executed. -/
theorem extrNextInstr_escapes {s : St} (h : ¬ ctx.InCode s.curInstrPtr) :
    Ends (fun _ s' => Escaped ctx s'.codeView) (fun _ s' => Escaped ctx s'.codeView)
      (extrNextInstr s) := by
  refine ⟨s.curInstrPtr, extrByOfs s.rinstrLine (ofsFromPtr s.curInstrPtr), ?_, h⟩
  rw [St.codeView, filter_append_of_isCode _ rfl]
  exact List.mem_append_right _ (List.mem_singleton_self _)

theorem extrNextInstr_simulates :
    Simulates b ctx m₀ Eq extrNextInstr (Flat.extrNextInstr (programOf b ctx m₀)) where
  keeps s hs := ⟨extrNextInstr_keeps s hs, _, rfl⟩
  escaped s _ he := extrNextInstr_keeps_code (escaped_invariant ctx) s he
  run s t hs hst := by
    by_cases hin : 4 * t.ip < ctx.codeSegSize
    · left
      have hw : extrByOfs s.rinstrLine (ofsFromPtr s.curInstrPtr) =
          (programOf b ctx m₀).code t.ip := by
        rw [extrByOfs_ofsFromPtr, hst.instr hin, hst.ip]
        exact (if_pos hin).symm
      have hobs := hst.observed
      rw [extrNextInstr, hw]
      refine ⟨_, { t with trace := t.trace ++ [(programOf b ctx m₀).code t.ip] }, rfl, ?_,
        .of_run fun rest => Flat.extrNextInstr_run hin⟩
      refine { hst with observed := { hobs with trace := ?_, printed := ?_ } }
      · rw [executed, List.filterMap_append, ← executed, hobs.trace]
        rfl
      · rw [printed, List.filterMap_append, ← printed, hobs.printed]
        exact List.append_nil _
    · right
      refine ⟨extrNextInstr_escapes ?_, t, .of_run fun _ => Flat.extrNextInstr_outside hin⟩
      rintro ⟨w, hw, hlt⟩
      have := hst.ip
      exact hin (by omega)

theorem incInstrPtr_simulates (hc : ctx.Aligned) (hd : ctx.Apart) :
    Simulates b ctx m₀ Eq (incInstrPtr b) Flat.incInstrPtr := by
  refine .of_eq incInstrPtr_keeps (incInstrPtr_keeps_code (escaped_invariant ctx)) ?_
  intro s t hs hst
  have hbp := hc.code_bp
  have hip := hst.ip
  have hip' : s.curInstrPtr + 4 = ctx.codeSegBp + 4 * ((t.ip + 1 : ℕ) : ℤ) := by omega
  have hadv : Quiet [.advance s.curInstrPtr] := by simp [Quiet, Event.word?, Event.value?]
  rw [incInstrPtr, bind_ok (run_get s), bind_ok (run_modify _ s)]
  split
  · next hofs =>
    have hline : (s.curInstrPtr + 4) / 16 = s.curInstrPtr / 16 := by
      unfold ofsFromPtr at hofs; omega
    refine ⟨(), { t with ip := t.ip + 1 }, rfl, ?_, .of_run fun _ => rfl⟩
    exact { hst with
      observed := hst.observed.quiet hadv rfl rfl rfl rfl rfl rfl rfl
      ip := hip'
      instr := fun hin => by
        have hin' : 4 * (t.ip + 1) < ctx.codeSegSize := hin
        rw [hline]
        exact hst.instr (by omega) }
  · next hofs =>
    have hk : s.curInstrPtr + 4 = 16 * ((s.curInstrPtr + 4) / 16) := by
      unfold ofsFromPtr at hofs; omega
    have hdec := decryptMemoryCbc_run b .code ((s.curInstrPtr + 4) / 16)
      { s with curInstrPtr := s.curInstrPtr + 4, log := s.log ++ [.advance s.curInstrPtr] }
    rw [← hk] at hdec
    rw [bind_ok hdec]
    refine ⟨(), { t with ip := t.ip + 1 }, rfl, ?_, .of_run fun _ => rfl⟩
    exact { hst with
      observed := hst.observed.quiet (hadv.append (decryptLog_quiet b .code _))
        (List.append_assoc ..) rfl rfl rfl rfl rfl rfl
      ip := hip'
      instr := fun hin => by
        simp only [hip']
        exact hs.contained.code_line hc hd b hin }

theorem calcJmpTarget_simulates (w : Word) :
    Simulates b ctx m₀ (TargetRel ctx) (calcJmpTarget ctx w)
      (Flat.calcJmpTarget (programOf b ctx m₀) w) := by
  unfold calcJmpTarget Flat.calcJmpTarget
  by_cases h : ctx.codeSegSize ≤ 4 * w.toNat
  · have h' : (programOf b ctx m₀).codeSize ≤ 4 * w.toNat := h
    rw [if_pos h, if_pos h']
    exact setError_simulates _ _
  · have h' : ¬ (programOf b ctx m₀).codeSize ≤ 4 * w.toNat := h
    rw [if_neg h, if_neg h']
    exact .pure ⟨rfl, not_le.mp h⟩

theorem jumpTo_simulates (hc : ctx.Aligned) (hd : ctx.Apart) {p : ℤ} {p' : ℕ}
    (h : TargetRel ctx p p') : Simulates b ctx m₀ Eq (jumpTo b p) (Flat.jumpTo p') := by
  obtain ⟨rfl, hin⟩ := h
  have hbp := hc.code_bp
  refine .of_eq (jumpTo_keeps (by omega))
    (jumpTo_keeps_code (escaped_invariant ctx) ⟨p', rfl, hin⟩) ?_
  intro s t hs hst
  rw [jumpTo, bind_ok (run_modify _ s), fetchInstrLine_run]
  refine ⟨(), { t with ip := p' }, rfl, ?_, .of_run fun _ => rfl⟩
  exact { hst with
    observed := hst.observed.quiet (decryptLog_quiet b .code _) rfl rfl rfl rfl rfl rfl rfl
    ip := rfl
    instr := fun _ => hs.contained.code_line hc hd b hin }

theorem retAddr_simulates : Simulates b ctx m₀ Eq (retAddr ctx) Flat.retAddr := by
  refine .of_eq (fun _ hs => hs) (fun _ he => he) ?_
  intro s t hs hst
  have hip := hst.ip
  have hw : (s.curInstrPtr - ctx.codeSegBp) / 4 + 1 = ((t.ip + 1 : ℕ) : ℤ) := by omega
  refine ⟨BitVec.ofNat 32 (t.ip + 1), t, ?_, hst, .of_run fun _ => rfl⟩
  rw [hw, BitVec.ofInt_natCast]

theorem incAndCheckCycleCnt_simulates :
    Simulates b ctx m₀ ExitRel (incAndCheckCycleCnt ctx) (pure .next) where
  keeps s hs := ⟨{ hs with }, .next, by unfold ExitRel; split <;> simp⟩
  escaped _ _ he := he
  run s t _ hst := by
    have hobs := hst.observed
    refine .inl ⟨.next, t, by unfold ExitRel; split <;> simp, ?_, .of_run fun _ => rfl⟩
    exact { hst with observed := ⟨hobs.halt, hobs.error, hobs.trace, hobs.printed⟩ }

theorem setHaltFlag_simulates :
    Simulates b ctx m₀ Eq (macros b ctx).setHaltFlag
      (flatMacros (programOf b ctx m₀)).setHaltFlag := by
  refine .of_eq (fun _ hs => { hs with }) (fun _ he => he) fun s t _ hst => ?_
  refine ⟨(), { t with haltFlag := true }, rfl, ?_, .of_run fun _ => rfl⟩
  exact { hst with observed := { hst.observed with halt := rfl } }

/-! ### Operand stack -/

/-- A word of the data segments is pushed or popped by dwords. -/
theorem Sim.stack_lt {s : St} {t : Flat} (hst : Sim b ctx m₀ s t) (hs : Inside ctx m₀ s) :
    4 * t.sp < ctx.stackSegSize := by
  have hsp := hst.sp
  have hhi := hs.stack.hi
  omega

theorem Sim.call_lt {s : St} {t : Flat} (hst : Sim b ctx m₀ s t) (hs : Inside ctx m₀ s) :
    4 * t.cp < ctx.callSegSize := by
  have hcp := hst.cp
  have hhi := hs.call.hi
  omega

theorem extrStack_simulates :
    Simulates b ctx m₀ Eq extrStack Flat.extrStack := by
  refine .of_eq extrStack_keeps (fun _ he => he) fun s t hs hst => ?_
  have hread : Supplies (Flat.readCell (t.stack t.sp)) t
      (.ok (extrByOfs s.rstackLine (ofsFromPtr s.curStackPtr)) t) := by
    refine .readCell fun w hw => ?_
    rw [extrByOfs_ofsFromPtr, hst.sp]
    exact hst.stack.extract (le_refl _) (by rw [hst.sp]) hw
  exact ⟨_, t, rfl, hst, hread⟩

theorem insStack_simulates (hc : ctx.Aligned) (w : Word) :
    Simulates b ctx m₀ Eq (insStack w) (Flat.insStack w) := by
  refine .of_eq (insStack_keeps w) (fun _ he => he) fun s t hs hst => ?_
  have hbp := hc.stack_bp
  have hobs := hst.observed
  have hins := hst.stack.insert (n := t.sp) (by omega) (by rw [hst.sp]) w
  refine ⟨(), { t with stack := Function.update t.stack t.sp (some w) }, rfl, ?_,
    .of_run fun _ => rfl⟩
  rw [← hst.sp, ← insByOfs_ofsFromPtr] at hins
  exact { hst with
    observed := ⟨hobs.halt, hobs.error, hobs.trace, hobs.printed⟩
    stack := hins }

theorem incStackPtr_simulates (hb : b.Inverts) (hc : ctx.Aligned) (hd : ctx.Apart) :
    Simulates b ctx m₀ Eq (incStackPtr b ctx) (Flat.incStackPtr (programOf b ctx m₀)) := by
  refine .of_eq (incStackPtr_keeps hc) ((incStackPtr_view b ctx).keeps (Escaped ctx)) ?_
  intro s t hs hst
  have hbp := hc.stack_bp
  have hsz := hc.stack_size
  have hcbp := hc.call_bp
  have hobs := hst.observed
  have hsp := hst.sp
  have hsp' : s.curStackPtr + 4 = ctx.stackSegBp + 4 * ((t.sp + 1 : ℕ) : ℤ) := by omega
  have hlt := hst.stack_lt hs
  have hclt := hst.call_lt hs
  have hcells : ∀ i ≤ t.sp + 1, ∀ w,
      Function.update t.stack (t.sp + 1) none i = some w → i ≤ t.sp ∧ t.stack i = some w := by
    intro i hi w hw
    by_cases hin : i = t.sp + 1
    · subst hin
      simp at hw
    · rw [Function.update_of_ne hin] at hw
      exact ⟨by omega, hw⟩
  rw [incStackPtr, bind_ok (run_get s), bind_ok (run_modify _ s)]
  split
  · next hofs =>
    have hline : (s.curStackPtr + 4) / 16 = s.curStackPtr / 16 := by
      unfold ofsFromPtr at hofs; omega
    have hroom : t.sp + 1 < (programOf b ctx m₀).stackWords := by
      simp only [programOf]; unfold ofsFromPtr at hofs; omega
    refine ⟨(), { t with sp := t.sp + 1, stack := Function.update t.stack (t.sp + 1) none }, rfl,
      ?_, .of_run fun _ => Flat.incStackPtr_run hroom⟩
    exact { hst with
      observed := ⟨hobs.halt, hobs.error, hobs.trace, hobs.printed⟩
      sp := hsp'
      stack := by
        simp only [hline]
        exact hst.stack.mono hcells fun _ _ _ => rfl }
  · next hofs =>
    have hk : (s.curStackPtr + 4) / 16 = s.curStackPtr / 16 + 1 := by
      unfold ofsFromPtr at hofs; omega
    have hquiet := encryptLog_quiet b .stack (16 * (s.curStackPtr / 16))
    rw [alignPtr_eq, bind_ok (encryptRegCbc_run ..)]
    split
    · next hover =>
      have hfull : (programOf b ctx m₀).stackWords ≤ t.sp + 1 := by
        simp only [programOf]; simp only [hsp'] at hover; omega
      refine setError_matches (u := { t with
        sp := t.sp + 1, stack := Function.update t.stack (t.sp + 1) none })
        (hobs.quiet hquiet rfl rfl rfl rfl rfl rfl rfl) fun _ => Flat.incStackPtr_error hfull
    · next hroom =>
      have hroom' : t.sp + 1 < (programOf b ctx m₀).stackWords := by
        simp only [programOf]; simp only [hsp'] at hroom; omega
      refine ⟨(), { t with
        sp := t.sp + 1, stack := Function.update t.stack (t.sp + 1) none }, rfl,
        ?_, .of_run fun _ => Flat.incStackPtr_run hroom'⟩
      exact { hst with
        observed := hobs.quiet hquiet rfl rfl rfl rfl rfl rfl rfl
        sp := hsp'
        stack := by
          simp only [hk]
          exact hst.stack.advance hb (by rw [hsp]) (lines_storeLine ..) hcells
        call := by
          refine hst.call.frame (s.curStackPtr / 16) (s.curStackPtr / 16)
            (fun j hj => ?_) ?_ hcbp
          · rw [lines_storeLine, Function.update_of_ne (by omega)]
          · have := hd.stack_call
            omega }

theorem decStackPtr_simulates (hc : ctx.Aligned) :
    Simulates b ctx m₀ Eq (decStackPtr b ctx) Flat.decStackPtr := by
  refine .of_eq (decStackPtr_keeps hc) ((decStackPtr_view b ctx).keeps (Escaped ctx)) ?_
  intro s t hs hst
  have hbp := hc.stack_bp
  have hobs := hst.observed
  have hsp := hst.sp
  have hsp' (h : t.sp ≠ 0) : s.curStackPtr - 4 = ctx.stackSegBp + 4 * ((t.sp - 1 : ℕ) : ℤ) := by
    omega
  rw [decStackPtr, bind_ok (run_get s), bind_ok (run_modify _ s)]
  split
  · next hofs =>
    have hpos : t.sp ≠ 0 := by unfold ofsFromPtr at hofs; omega
    have hline : (s.curStackPtr - 4) / 16 = s.curStackPtr / 16 := by
      unfold ofsFromPtr at hofs; omega
    refine ⟨(), { t with sp := t.sp - 1 }, rfl, ?_, .of_run fun _ => Flat.decStackPtr_run hpos⟩
    exact { hst with
      observed := ⟨hobs.halt, hobs.error, hobs.trace, hobs.printed⟩
      sp := hsp' hpos
      stack := by
        simp only [hline]
        exact hst.stack.lower (by omega) }
  split
  · next hunder =>
    have hzero : t.sp = 0 := by omega
    exact setError_matches ⟨hobs.halt, hobs.error, hobs.trace, hobs.printed⟩
      fun _ => Flat.decStackPtr_error hzero
  · next hofs hroom =>
    have hpos : t.sp ≠ 0 := by omega
    have hk : (s.curStackPtr - 4) / 16 < s.curStackPtr / 16 := by
      unfold ofsFromPtr at hofs; omega
    rw [alignPtr_eq, bind_ok (decryptMemoryCbc_run ..)]
    refine ⟨(), { t with sp := t.sp - 1 }, rfl, ?_, .of_run fun _ => Flat.decStackPtr_run hpos⟩
    exact { hst with
      observed := hobs.quiet (decryptLog_quiet b .stack _) rfl rfl rfl rfl rfl rfl rfl
      sp := hsp' hpos
      stack := hst.stack.drop (Nat.sub_le ..) (by rw [← hsp' hpos]; exact hk) }

/-! ### Call stack -/

/-- Flushing the loaded call line up to the line of the pointer `p`: all call words
up to `p` are then found in memory, and no line outside the call segment changes. -/
theorem flush_holds (hb : b.Inverts) (hc : ctx.Aligned) {s : St} {cp : ℕ}
    {cells : ℕ → Option Word}
    (hline : LineInside ctx.callSegBp (ctx.callSegBp + 4 * cp) s.curCallLine)
    (hcp : 4 * cp < ctx.callSegSize)
    (h : Holds b s.mem (s.curCallLine / 16) s.rcallLine ctx.callSegBp cp cells) :
    ∃ mem' es, encryptRegCbcChain b .call s.rcallLine s.curCallLine
        (alignPtr (ctx.callSegBp + 4 * cp)) s = .ok () { s with mem := mem', log := s.log ++ es } ∧
      Quiet es ∧
      Stored b mem' ctx.callSegBp cp cells ∧
      ∀ j, 16 * j < ctx.callSegBp ∨ ctx.callSegBp + ctx.callSegSize ≤ 16 * j →
        lines mem' j = lines s.mem j := by
  obtain ⟨⟨k, hk⟩, hlo, hhi⟩ := hline
  have hbp := hc.call_bp
  have hsz := hc.call_size
  obtain ⟨n, hn⟩ := Int.eq_ofNat_of_zero_le
    (show 0 ≤ (ctx.callSegBp + 4 * (cp : ℤ)) / 16 - k by omega)
  have hend : (ctx.callSegBp + 4 * (cp : ℤ)) / 16 = k + n := by omega
  have hk' : s.curCallLine / 16 = k := by omega
  obtain ⟨mem', hrun, hmem, -⟩ := encryptRegCbcChain_run b .call s.rcallLine k n s
  have hes : ∀ e ∈ chainLog b .call (16 * k) n, e.InChain .call k (k + n) :=
    fun e he => chainLog_inChain b .call n k he
  rw [hk'] at h
  refine ⟨mem', chainLog b .call (16 * k) n, ?_, Event.InChain.quiet hes, h.stored hb hend hmem,
    fun j hj => ?_⟩
  · rw [alignPtr_eq, hend, ← hrun, hk]
  · rw [hmem, Mode.rechain_of_lt_or_gt _ _ _ _ _ (by omega)]

/-- The stack words do not move while the call segment is rewritten. -/
theorem Sim.stack_frame {s : St} {t : Flat} (hst : Sim b ctx m₀ s t) (hs : Inside ctx m₀ s)
    (hc : ctx.Aligned) (hd : ctx.Apart) {mem' : ℤ → Word}
    (hmem : ∀ j, 16 * j < ctx.callSegBp ∨ ctx.callSegBp + ctx.callSegSize ≤ 16 * j →
      lines mem' j = lines s.mem j) :
    Holds b mem' (s.curStackPtr / 16) s.rstackLine ctx.stackSegBp t.sp t.stack := by
  have hbp := hc.stack_bp
  have hcbp := hc.call_bp
  have hcsz := hc.call_size
  have hlt := hst.stack_lt hs
  refine hst.stack.frame (ctx.callSegBp / 16)
    ((ctx.callSegBp + ctx.callSegSize) / 16 - 1) (fun j hj => hmem j (by omega)) ?_ hbp
  have := hd.stack_call
  omega

theorem Sim.line_inside {s : St} {t : Flat} (hst : Sim b ctx m₀ s t) (hs : Inside ctx m₀ s) :
    LineInside ctx.callSegBp (ctx.callSegBp + 4 * t.cp) s.curCallLine := hst.cp ▸ hs.line

/-- Loading another call line. -/
theorem fetchCallLine_sim (hb : b.Inverts) (hc : ctx.Aligned) (hd : ctx.Apart) {s : St}
    {t : Flat} (hs : Inside ctx m₀ s) (hst : Sim b ctx m₀ s t) {k : ℤ}
    (hlo : ctx.callSegBp ≤ 16 * k) :
    ∃ s', fetchCallLine b ctx (16 * k) s = .ok () s' ∧ Sim b ctx m₀ s' t ∧
      s'.curCallLine = 16 * k := by
  rw [fetchCallLine, bind_ok (run_get s)]
  split
  · next h => exact ⟨s, rfl, hst, h⟩
  · obtain ⟨mem', es, hrun, hquiet, hstored, hmem⟩ :=
      flush_holds hb hc (hst.line_inside hs) (hst.call_lt hs) hst.call
    have hk : 16 * k / 16 = k := by omega
    rw [if_neg (not_lt.mpr hlo), hst.cp, bind_ok hrun, bind_ok (decryptMemoryCbc_run ..)]
    refine ⟨_, rfl, { hst with
      observed := hst.observed.quiet (hquiet.append (decryptLog_quiet b .call _))
        (List.append_assoc ..) rfl rfl rfl rfl rfl rfl
      stack := hst.stack_frame hs hc hd hmem
      call := ?_ }, rfl⟩
    simp only [hk]
    exact hstored.holds k

/-- A displacement that leaves the call segment. -/
theorem fetchCallLine_underflow {s : St} (hs : Inside ctx m₀ s) {target : ℤ}
    (hlt : target < ctx.callSegBp) :
    fetchCallLine b ctx target s = setError .callUnderflow s := by
  have hlo := hs.line.lo
  rw [fetchCallLine, bind_ok (run_get s), if_neg (by omega), if_pos hlt]

theorem fetchCallElement_simulates (hb : b.Inverts) (hc : ctx.Aligned) (hd : ctx.Apart) {d : ℕ}
    (h4 : 4 ∣ d) : Simulates b ctx m₀ Eq (fetchCallElement b ctx d) (Flat.fetchCallElement d) := by
  refine .of_eq (fetchCallElement_keeps hc d)
    ((fetchCallElement_view b ctx d).keeps (Escaped ctx)) ?_
  intro s t hs hst
  have hbp := hc.call_bp
  have hcp := hst.cp
  rw [fetchCallElement, bind_ok (run_get s), alignPtr_eq]
  by_cases hle : d / 4 ≤ t.cp
  · have hp : s.curCallPtr - d = ctx.callSegBp + 4 * ((t.cp - d / 4 : ℕ) : ℤ) := by omega
    obtain ⟨s', hrun, hst', hline⟩ := fetchCallLine_sim hb hc hd hs hst
      (k := (s.curCallPtr - d) / 16) (by omega)
    have hread : Supplies (Flat.fetchCallElement d) t
        (.ok (extrByOfs s'.rcallLine (ofsFromPtr (s.curCallPtr - d))) t) := by
      refine .congr (z := Flat.readCell (t.call (t.cp - d / 4)))
        (fun _ => Flat.fetchCallElement_eq hle) (.readCell fun w hw => ?_)
      rw [extrByOfs_ofsFromPtr, hp]
      exact hst'.call.extract (Nat.sub_le ..) (by rw [hline, ← hp]; omega) hw
    rw [bind_ok hrun]
    exact ⟨_, t, rfl, hst', hread⟩
  · rw [Effect.bind_error (fetchCallLine_underflow hs (by omega))]
    exact setError_matches hst.observed fun _ => Flat.fetchCallElement_error (not_le.mp hle)

theorem saveCallElement_simulates (hb : b.Inverts) (hc : ctx.Aligned) (hd : ctx.Apart) {d : ℕ}
    (w : Word) (h4 : 4 ∣ d) :
    Simulates b ctx m₀ Eq (saveCallElement b ctx d w) (Flat.saveCallElement d w) := by
  refine .of_eq (saveCallElement_keeps hc d w)
    ((saveCallElement_view b ctx d w).keeps (Escaped ctx)) ?_
  intro s t hs hst
  have hbp := hc.call_bp
  have hcp := hst.cp
  rw [saveCallElement, bind_ok (run_get s), alignPtr_eq]
  by_cases hle : d / 4 ≤ t.cp
  · have hp : s.curCallPtr - d = ctx.callSegBp + 4 * ((t.cp - d / 4 : ℕ) : ℤ) := by omega
    obtain ⟨s', hrun, hst', hline⟩ := fetchCallLine_sim hb hc hd hs hst
      (k := (s.curCallPtr - d) / 16) (by omega)
    have hins := hst'.call.insert (n := t.cp - d / 4) (by omega)
      (by rw [hline, ← hp]; omega) w
    rw [← hp, ← insByOfs_ofsFromPtr] at hins
    have hobs := hst'.observed
    rw [bind_ok hrun]
    refine ⟨(), { t with call := Function.update t.call (t.cp - d / 4) (some w) }, rfl, ?_,
      .of_run fun _ => Flat.saveCallElement_run hle⟩
    exact { hst' with
      observed := ⟨hobs.halt, hobs.error, hobs.trace, hobs.printed⟩
      call := hins }
  · rw [Effect.bind_error (fetchCallLine_underflow hs (by omega))]
    exact setError_matches hst.observed fun _ => Flat.saveCallElement_error (not_le.mp hle)

theorem incCallPtr_simulates (hc : ctx.Aligned) {d : ℕ} (h4 : 4 ∣ d) :
    Simulates b ctx m₀ Eq (incCallPtr ctx d) (Flat.incCallPtr (programOf b ctx m₀) d) := by
  refine .of_eq (incCallPtr_keeps h4) ((incCallPtr_view ctx d).keeps (Escaped ctx)) ?_
  intro s t hs hst
  have hsz := hc.call_size
  have hcp := hst.cp
  have hobs := hst.observed
  have hcp' : s.curCallPtr + d = ctx.callSegBp + 4 * ((t.cp + d / 4 : ℕ) : ℤ) := by omega
  rw [incCallPtr, bind_ok (run_modify _ s), bind_ok (run_get _)]
  split
  · next hover =>
    have hfull : (programOf b ctx m₀).callWords ≤ t.cp + d / 4 := by
      simp only [programOf]; simp only [hcp'] at hover; omega
    exact setError_matches (u := { t with
      cp := t.cp + d / 4, call := Flat.clearAbove t.call t.cp (d / 4) })
      ⟨hobs.halt, hobs.error, hobs.trace, hobs.printed⟩ fun _ => Flat.incCallPtr_error hfull
  · next hroom =>
    have hroom' : t.cp + d / 4 < (programOf b ctx m₀).callWords := by
      simp only [programOf]; simp only [hcp'] at hroom; omega
    refine ⟨(), { t with
      cp := t.cp + d / 4, call := Flat.clearAbove t.call t.cp (d / 4) }, rfl, ?_,
      .of_run fun _ => Flat.incCallPtr_run hroom'⟩
    exact { hst with
      observed := ⟨hobs.halt, hobs.error, hobs.trace, hobs.printed⟩
      cp := hcp'
      call := by
        refine hst.call.mono (fun i hi w hw => ?_) fun _ _ _ => rfl
        exact Flat.clearAbove_eq_some hi hw }

theorem decCallPtr_simulates (hb : b.Inverts) (hc : ctx.Aligned) (hd : ctx.Apart) {d : ℕ}
    (h4 : 4 ∣ d) : Simulates b ctx m₀ Eq (decCallPtr b ctx d) (Flat.decCallPtr d) := by
  refine .of_eq (decCallPtr_keeps hc h4) ((decCallPtr_view b ctx d).keeps (Escaped ctx)) ?_
  intro s t hs hst
  have hcp := hst.cp
  have hobs := hst.observed
  rw [decCallPtr, bind_ok (run_get s), bind_ok (run_modify _ s), bind_ok (run_get _)]
  split
  · next hunder =>
    have hlt : t.cp < d / 4 := by simp only [hcp] at hunder; omega
    exact setError_matches ⟨hobs.halt, hobs.error, hobs.trace, hobs.printed⟩
      fun _ => Flat.decCallPtr_error hlt
  next hroom =>
  have hle : d / 4 ≤ t.cp := by simp only [hcp] at hroom; omega
  have hcp' : s.curCallPtr - d = ctx.callSegBp + 4 * ((t.cp - d / 4 : ℕ) : ℤ) := by omega
  split
  · refine ⟨(), { t with cp := t.cp - d / 4 }, rfl, ?_, .of_run fun _ => Flat.decCallPtr_run hle⟩
    exact { hst with
      observed := ⟨hobs.halt, hobs.error, hobs.trace, hobs.printed⟩
      cp := hcp'
      call := hst.call.lower (Nat.sub_le ..) }
  · obtain ⟨mem', es, hrun, hquiet, hstored, hmem⟩ := flush_holds hb hc
      (s := { s with curCallPtr := s.curCallPtr - d }) (hst.line_inside hs) (hst.call_lt hs)
      hst.call
    rw [hcp] at hrun ⊢
    rw [bind_ok hrun]
    simp only [alignPtr_eq]
    rw [bind_ok (decryptMemoryCbc_run ..)]
    have hk : 16 * ((ctx.callSegBp + 4 * (t.cp : ℤ) - d) / 16) / 16 =
        (ctx.callSegBp + 4 * (t.cp : ℤ) - d) / 16 := by omega
    refine ⟨(), { t with cp := t.cp - d / 4 }, rfl, ?_, .of_run fun _ => Flat.decCallPtr_run hle⟩
    exact { hst with
      observed := hobs.quiet (hquiet.append (decryptLog_quiet b .call _))
        (List.append_assoc ..) rfl rfl rfl rfl rfl rfl
      cp := by rw [hcp] at hcp'; exact hcp'
      stack := hst.stack_frame hs hc hd hmem
      call := by
        simp only [hk]
        exact (hstored.lower (Nat.sub_le ..)).holds _ }

/-! ### Print buffer -/

theorem printWord_simulates (hc : ctx.Aligned) (hd : ctx.Apart) (w : Word) :
    Simulates b ctx m₀ Eq (printWord ctx w) (Flat.print w) := by
  refine .of_eq (printWord_keeps hc w) ((printWord_view ctx w).keeps (Escaped ctx)) ?_
  intro s t hs hst
  obtain ⟨-, hlo, hhi⟩ := hs.print
  have hobs := hst.observed
  have hlt := hst.stack_lt hs
  have hclt := hst.call_lt hs
  have hmem (j : ℤ) (hj : j < s.printPtr / 16 ∨ s.printPtr / 16 < j) :
      lines (Function.update s.mem s.printPtr w) j = lines s.mem j :=
    lines_update_of_ne _ _ _ (by omega)
  have hbp := hc.print_bp
  have hsbp := hc.stack_bp
  have hcbp := hc.call_bp
  have hstack := hst.stack.frame _ _ hmem (by have := hd.stack_print; omega) hsbp
  have hcall := hst.call.frame _ _ hmem (by have := hd.call_print; omega) hcbp
  have htrace : executed (s.log ++ [.print s.printPtr w]) = t.trace := by
    rw [executed, List.filterMap_append, ← executed, hobs.trace]
    exact List.append_nil _
  have hprinted : printed (s.log ++ [.print s.printPtr w]) = t.printed ++ [w] := by
    rw [printed, List.filterMap_append, ← printed, hobs.printed]
    rfl
  rw [printWord, bind_ok (run_get s), bind_ok (run_modify _ s)]
  split
  · refine ⟨(), { t with printed := t.printed ++ [w] }, rfl, ?_, .of_run fun _ => rfl⟩
    exact { hst with
      observed := ⟨hobs.halt, hobs.error, htrace, hprinted⟩, stack := hstack, call := hcall }
  · refine ⟨(), { t with printed := t.printed ++ [w] }, rfl, ?_, .of_run fun _ => rfl⟩
    exact { hst with
      observed := ⟨hobs.halt, hobs.error, htrace, hprinted⟩, stack := hstack, call := hcall }

/-! ## Instructions and runs -/

theorem macros_simulate (hb : b.Inverts) (hc : ctx.Aligned) (hd : ctx.Apart) :
    MacrosRel (MonadRel.simulation b ctx m₀) (TargetRel ctx) ExitRel (macros b ctx)
      (flatMacros (programOf b ctx m₀)) where
  argc := rfl
  argv := rfl
  error A e := setError_simulates A e
  incAndCheckCycleCnt := incAndCheckCycleCnt_simulates
  extrNextInstr := extrNextInstr_simulates
  incInstrPtr := incInstrPtr_simulates hc hd
  calcJmpTarget w := calcJmpTarget_simulates w
  jumpTo _ _ h := jumpTo_simulates hc hd h
  retAddr := retAddr_simulates
  extrStack := extrStack_simulates
  insStack w := insStack_simulates hc w
  incStackPtr := incStackPtr_simulates hb hc hd
  decStackPtr := decStackPtr_simulates hc
  fetchCallElement _ h4 := fetchCallElement_simulates hb hc hd h4
  saveCallElement _ w h4 := saveCallElement_simulates hb hc hd w h4
  incCallPtr _ h4 := incCallPtr_simulates hc h4
  decCallPtr _ h4 := decCallPtr_simulates hb hc hd h4
  print w := printWord_simulates hc hd w

/-- **Every instruction is simulated.** -/
theorem dispatch_simulates (hb : b.Inverts) (hc : ctx.Aligned) (hd : ctx.Apart) :
    Simulates b ctx m₀ ExitRel (dispatch (macros b ctx))
      (dispatch (flatMacros (programOf b ctx m₀))) :=
  dispatch_rel (macros_simulate hb hc hd)
    (rel_seq setHaltFlag_simulates fun _ => Simulates.pure (.inl ⟨rfl, rfl⟩))

/-- Executing a word outside the code segment cannot be undone. -/
theorem dispatchLoop_escaped (n : ℕ) {s : St}
    (h : Ends (fun _ s' => Escaped ctx s'.codeView) (fun _ s' => Escaped ctx s'.codeView)
      (dispatch (macros b ctx) s)) :
    Ends (fun _ s' => Escaped ctx s'.codeView) (fun _ s' => Escaped ctx s'.codeView)
      (dispatchLoop (macros b ctx) (n + 1) s) := by
  induction n generalizing s with
  | zero =>
      refine h.bind fun c s' hs' => ?_
      cases c <;> exact hs'
  | succ n ih =>
      refine h.bind fun c s' hs' => ?_
      cases c with
      | next => exact ih (dispatch_keeps_code (escaped_invariant ctx) s' hs')
      | cycleEnd => exact hs'
      | finish => exact hs'

/-- A run is answered by a run of as many instructions. -/
theorem dispatchLoop_matches (hb : b.Inverts) (hc : ctx.Aligned) (hd : ctx.Apart) (n : ℕ)
    {s : St} {t : Flat} (hs : Inside ctx m₀ s) (hst : Sim b ctx m₀ s t)
    (hin : ¬ Escaped ctx (stateOf (dispatchLoop (macros b ctx) n s)).codeView) :
    ∃ k ≤ n, Matches b ctx m₀ ExitRel (dispatchLoop (flatMacros (programOf b ctx m₀)) k) t
      (dispatchLoop (macros b ctx) n s) := by
  induction n generalizing s t with
  | zero =>
      refine ⟨0, le_refl _, .next, t, .inr ⟨by simp, rfl⟩, hst, .of_run fun _ => rfl⟩
  | succ n ih =>
      have hsim : Simulates b ctx m₀ ExitRel _ _ := dispatch_simulates hb hc hd
      have hk := hsim.keeps s hs
      rcases hsim.run s t hs hst with hm | he
      · cases hds : dispatch (macros b ctx) s with
        | error e s' =>
            rw [hds] at hm
            obtain ⟨e', t', rfl, hobs, hsup⟩ := hm
            have hloop : dispatchLoop (macros b ctx) (n + 1) s = .error (.error e') s' :=
              Effect.bind_error hds
            rw [hloop]
            exact ⟨1, by omega, e', t', rfl, hobs, hsup.bind_error⟩
        | ok c s' =>
            rw [hds] at hm hk
            obtain ⟨c', t', hcc, hst', hsup⟩ := hm
            cases c with
            | next =>
                obtain rfl : c' = .next := by simpa [ExitRel] using hcc
                have hloop : dispatchLoop (macros b ctx) (n + 1) s =
                  dispatchLoop (macros b ctx) n s' := bind_ok hds
                rw [hloop] at hin ⊢
                obtain ⟨k, hkn, hmk⟩ := ih hk.1 hst' hin
                refine ⟨k + 1, by omega, ?_⟩
                exact Matches.seq hsup hmk
            | cycleEnd =>
                obtain rfl : c' = .next := by simpa [ExitRel] using hcc
                have hloop : dispatchLoop (macros b ctx) (n + 1) s = .ok .cycleEnd s' := bind_ok hds
                rw [hloop]
                exact ⟨1, by omega, .next, t', hcc, hst', hsup.bind (.of_run fun _ => rfl)⟩
            | finish =>
                obtain rfl : c' = .finish := by simpa [ExitRel] using hcc
                have hloop : dispatchLoop (macros b ctx) (n + 1) s = .ok .finish s' := bind_ok hds
                rw [hloop]
                exact ⟨1, by omega, .finish, t', hcc, hst', hsup.bind (.of_run fun _ => rfl)⟩
      · exact (hin (dispatchLoop_escaped n he.1).state).elim

end Macros
end Bispe
