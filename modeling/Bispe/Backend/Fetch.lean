import Bispe.Backend.Safety

/-!
# Instruction fetch

Jump targets are compared with the size of the code segment; the straight-line
advance of `inc_instr_ptr` is not.  This module follows the instruction pointer
and the words that are executed through every macro, and states what is needed
for all of them to lie in the code segment.

## Main definitions

* `St.codeView` — the instruction pointer and the code events of the log.
* `CodeInvariant` — a property of them that fetch, advance and jump keep.
* `Ctx.InCode` — the address of a word of the code segment.
* `Reach.fetch_inside` — runs that do not advance off the last word.
-/

namespace Bispe

open Effect

/-- The events of the instruction pointer. -/
def Event.isCode : Event → Bool
  | .fetch _ _ => true
  | .advance _ => true
  | _ => false

/-- The instruction pointer and what was executed so far. -/
def St.codeView (s : St) : ℤ × List Event := (s.curInstrPtr, s.log.filter Event.isCode)

/-- The program leaves the instruction pointer alone and executes nothing. -/
abbrev KeepsView {α : Type} (x : M α) : Prop := Preserves St.codeView x

section View
variable {α : Type}

theorem setError_view (e : Err) : KeepsView (setError e : M α) := ⟨fun _ => rfl⟩

theorem hang_view : KeepsView (hang : M α) := ⟨fun _ => rfl⟩

/-- The code view the next cycle starts with. -/
def St.savedView (s : St) : ℤ × List Event := (s.instrPtr, s.log.filter Event.isCode)

/-- An event that is not a code event leaves the view as it is. -/
theorem filter_append_of_not_isCode (log : List Event) {e : Event} (h : e.isCode = false) :
    (log ++ [e]).filter Event.isCode = log.filter Event.isCode := by
  simp [List.filter_append, h]

theorem filter_append_of_isCode (log : List Event) {e : Event} (h : e.isCode = true) :
    (log ++ [e]).filter Event.isCode = log.filter Event.isCode ++ [e] := by
  simp [List.filter_append, h]

theorem readLine_view (seg : Seg) (p : ℤ) : KeepsView (readLine seg p) :=
  ⟨fun _ => Prod.ext rfl (filter_append_of_not_isCode _ rfl)⟩

theorem writeLine_view (seg : Seg) (p : ℤ) (x : Line) : KeepsView (writeLine seg p x) :=
  ⟨fun _ => Prod.ext rfl (filter_append_of_not_isCode _ rfl)⟩

theorem decryptMemoryCbc_view (b : Build) (seg : Seg) (p : ℤ) :
    KeepsView (decryptMemoryCbc b seg p) := by
  refine .bind (readLine_view seg p) fun rstate => ?_
  cases b with
  | none => exact .pure _
  | some c => exact .bind (readLine_view _ _) fun _ => .pure _

theorem encryptRegCbc_view (b : Build) (seg : Seg) (x : Line) (p : ℤ) :
    KeepsView (encryptRegCbc b seg x p) := by
  cases b with
  | none => exact writeLine_view ..
  | some c => exact .bind (readLine_view _ _) fun _ => writeLine_view ..

theorem encryptLoop_view (c : Cipher) (seg : Seg) (n : ℕ) (x : Line) (dest last : ℤ) :
    KeepsView (encryptLoop c seg n x dest last) := by
  induction n generalizing x dest with
  | zero => exact .ite (writeLine_view ..) hang_view
  | succ n ih =>
      refine .ite (writeLine_view ..) ?_
      refine .bind (readLine_view _ _) fun _ => ?_
      refine .bind (readLine_view _ _) fun _ => ?_
      exact .bind (writeLine_view ..) fun _ => ih ..

theorem encryptRegCbcChain_view (b : Build) (seg : Seg) (x : Line) (dest last : ℤ) :
    KeepsView (encryptRegCbcChain b seg x dest last) := by
  cases b with
  | none => exact writeLine_view ..
  | some c =>
      refine .bind (.modify fun s => Prod.ext rfl (filter_append_of_not_isCode _ rfl)) fun _ => ?_
      exact .bind (readLine_view _ _) fun _ => encryptLoop_view ..

variable (b : Build) (ctx : Ctx)

theorem incStackPtr_view : KeepsView (incStackPtr b ctx) := by
  refine .bind .get fun s => .bind (.modify fun _ => rfl) fun _ => .ite (.pure _) ?_
  exact .bind (encryptRegCbc_view ..) fun _ => .ite (setError_view _) (.pure _)

theorem decStackPtr_view : KeepsView (decStackPtr b ctx) := by
  refine .bind .get fun s => .bind (.modify fun _ => rfl) fun _ => .ite (.pure _) ?_
  refine .ite (setError_view _) ?_
  exact .bind (decryptMemoryCbc_view ..) fun _ => .modify fun _ => rfl

theorem fetchCallLine_view (target : ℤ) : KeepsView (fetchCallLine b ctx target) := by
  refine .bind .get fun s => .ite (.pure _) <| .ite (setError_view _) ?_
  refine .bind (encryptRegCbcChain_view ..) fun _ => ?_
  exact .bind (decryptMemoryCbc_view ..) fun _ => .modify fun _ => rfl

theorem fetchCallElement_view (d : ℕ) : KeepsView (fetchCallElement b ctx d) :=
  .bind .get fun _ => .bind (fetchCallLine_view ..) fun _ => .bind .get fun _ => .pure _

theorem saveCallElement_view (d : ℕ) (w : Word) : KeepsView (saveCallElement b ctx d w) :=
  .bind .get fun _ => .bind (fetchCallLine_view ..) fun _ => .modify fun _ => rfl

theorem incCallPtr_view (d : ℕ) : KeepsView (incCallPtr ctx d) :=
  .bind (.modify fun _ => rfl) fun _ => .bind .get fun _ => .ite (setError_view _) (.pure _)

theorem decCallPtr_view (d : ℕ) : KeepsView (decCallPtr b ctx d) := by
  refine .bind .get fun _ => .bind (.modify fun _ => rfl) fun _ => .bind .get fun _ => ?_
  refine .ite (setError_view _) <| .ite (.pure _) ?_
  refine .bind (encryptRegCbcChain_view ..) fun _ => ?_
  exact .bind (decryptMemoryCbc_view ..) fun _ => .modify fun _ => rfl

theorem printWord_view (w : Word) : KeepsView (printWord ctx w) := by
  refine .bind .get fun _ => .bind (.modify fun _ => ?_) fun _ =>
    .ite (.pure _) (.modify fun _ => rfl)
  exact Prod.ext rfl (filter_append_of_not_isCode _ rfl)

theorem saveStackLine_view : KeepsView (saveStackLine b) :=
  .bind .get fun _ => encryptRegCbc_view ..

theorem saveCallLine_view : KeepsView (saveCallLine b) :=
  .bind .get fun _ => encryptRegCbcChain_view ..

end View

/-! ## Invariants of the code -/

/-- The address of a word of the code segment. -/
def Ctx.InCode (ctx : Ctx) (p : ℤ) : Prop :=
  ∃ w : ℕ, p = ctx.codeSegBp + 4 * w ∧ 4 * w < ctx.codeSegSize

/-- A property of the instruction pointer and the executed words that the three
macros which change them keep. -/
structure CodeInvariant (ctx : Ctx) (I : ℤ × List Event → Prop) : Prop where
  fetch : ∀ p w log, I (p, log) → I (p, log ++ [.fetch p w])
  advance : ∀ p log, I (p, log) → I (p + 4, log ++ [.advance p])
  jump : ∀ p q log, I (p, log) → ctx.InCode q → I (q, log)

section Invariant
variable {b : Build} {ctx : Ctx} {I : ℤ × List Event → Prop}

theorem extrNextInstr_keeps_code (hI : CodeInvariant ctx I) :
    Keeps (fun s => I s.codeView) (fun _ s => I s.codeView) extrNextInstr := by
  intro s hs
  have h := hI.fetch _ (extrByOfs s.rinstrLine (ofsFromPtr s.curInstrPtr)) _ hs
  rwa [← filter_append_of_isCode _ rfl] at h

theorem incInstrPtr_keeps_code (hI : CodeInvariant ctx I) :
    Keeps (fun s => I s.codeView) (fun _ s => I s.codeView) (incInstrPtr b) := by
  intro s hs
  have h := hI.advance _ _ hs
  rw [incInstrPtr, bind_ok (run_get s), bind_ok (run_modify _ s)]
  have hrest : KeepsView (if ofsFromPtr s.curInstrPtr ≠ 12 then pure () else do
      let line ← decryptMemoryCbc b .code (s.curInstrPtr + 4)
      modify fun s => { s with rinstrLine := line }) :=
    .ite (.pure _) (.bind (decryptMemoryCbc_view ..) fun _ => .modify fun _ => rfl)
  refine hrest.keeps I _ ?_
  rwa [← filter_append_of_isCode _ rfl] at h

theorem fetchInstrLine_view : KeepsView (fetchInstrLine b) :=
  .bind .get fun _ => .bind (decryptMemoryCbc_view ..) fun _ => .modify fun _ => rfl

theorem jumpTo_keeps_code (hI : CodeInvariant ctx I) {p : ℤ} (hp : ctx.InCode p) :
    Keeps (fun s => I s.codeView) (fun _ s => I s.codeView) (jumpTo b p) := by
  intro s hs
  rw [jumpTo, bind_ok (run_modify _ s)]
  exact fetchInstrLine_view.keeps I _ (hI.jump _ p _ hs hp)

theorem macros_keep_code (hI : CodeInvariant ctx I) :
    MacrosRel (MonadRel.keeping (fun s => I s.codeView) (fun _ s => I s.codeView))
      (fun p p' => p = p' ∧ ctx.InCode p) Eq (macros b ctx) (macros b ctx) where
  argc := rfl
  argv := rfl
  error _ _ := fun _ hs => ⟨rfl, rfl, hs⟩
  incAndCheckCycleCnt := Keeps.rel fun _ hs => hs
  extrNextInstr := (extrNextInstr_keeps_code hI).rel
  incInstrPtr := (incInstrPtr_keeps_code hI).rel
  calcJmpTarget w := fun s hs => by
    simp only [macros, calcJmpTarget]
    by_cases h : ctx.codeSegSize ≤ 4 * w.toNat
    · simp only [if_pos h]
      exact ⟨rfl, rfl, hs⟩
    · simp only [if_neg h]
      exact ⟨⟨rfl, w.toNat, rfl, not_le.mp h⟩, rfl, hs⟩
  jumpTo p p' h := by
    obtain ⟨rfl, hp⟩ := h
    exact (jumpTo_keeps_code hI hp).rel
  retAddr := Keeps.rel fun _ hs => hs
  extrStack := Keeps.rel fun _ hs => hs
  insStack _ := Keeps.rel fun _ hs => hs
  incStackPtr := ((incStackPtr_view b ctx).keeps I).rel
  decStackPtr := ((decStackPtr_view b ctx).keeps I).rel
  fetchCallElement d _ := ((fetchCallElement_view b ctx d).keeps I).rel
  saveCallElement d w _ := ((saveCallElement_view b ctx d w).keeps I).rel
  incCallPtr d _ := ((incCallPtr_view ctx d).keeps I).rel
  decCallPtr d _ := ((decCallPtr_view b ctx d).keeps I).rel
  print w := ((printWord_view ctx w).keeps I).rel

theorem dispatch_keeps_code (hI : CodeInvariant ctx I) :
    Keeps (fun s => I s.codeView) (fun _ s => I s.codeView) (dispatch (macros b ctx)) :=
  Keeps.of_rel (dispatch_rel (macros_keep_code hI) (Keeps.rel fun _ hs => hs))

theorem bispeCycleEntry_code {s : St} (hs : I s.savedView) :
    Ends (fun _ s' => I s'.codeView) (fun _ s' => I s'.codeView) (bispeCycleEntry b ctx s) := by
  rw [bispeCycleEntry, bind_ok (run_modify _ s), loadStatePtrs, bind_ok (run_modify _ _)]
  refine Preserves.keeps (.bind fetchInstrLine_view fun _ => ?_) I _ hs
  refine .bind (.bind .get fun _ => .bind (decryptMemoryCbc_view ..) fun _ =>
    .modify fun _ => rfl) fun _ => .bind .get fun _ => ?_
  exact .ite (setError_view _) (.bind (decryptMemoryCbc_view ..) fun _ => .modify fun _ => rfl)

/-- What `I` says about a phase.  Between two cycles the instruction pointer is in
memory; after an error it is lost. -/
def Phase.Code (I : ℤ × List Event → Prop) : Phase → St → Prop
  | .idle, s => ∃ p, I (p, s.log.filter Event.isCode) ∧ (s.haltFlag = false → p = s.instrPtr)
  | .dispatch, s => I s.codeView
  | .outro, s => I s.codeView

theorem Phase.Code.view {ph : Phase} {s : St} (h : ph.Code I s) :
    ∃ p, I (p, s.log.filter Event.isCode) := by
  cases ph with
  | idle => exact h.imp fun _ => And.left
  | dispatch => exact ⟨_, h⟩
  | outro => exact ⟨_, h⟩

theorem phaseStep_keeps_code (hI : CodeInvariant ctx I) {ph : Phase} {s : St} (hs : ph.Code I s)
    (hlive : ph.Live s) :
    Ends (fun ph' s' => ph'.Code I s') (fun _ s' => I s'.codeView) (phaseStep b ctx ph s) := by
  cases ph with
  | idle =>
      obtain ⟨p, hp, hsame⟩ := hs
      obtain rfl := hsame (hlive rfl)
      exact Ends.bind (bispeCycleEntry_code hp) fun _ s' hs' => hs'
  | dispatch =>
      refine Ends.bind (dispatch_keeps_code hI s hs) fun c s' hs' => ?_
      cases c with
      | next => exact hs'
      | cycleEnd => exact hs'
      | finish => exact hs'
  | outro =>
      refine Ends.bind (P := fun _ s' => s'.codeView = s'.savedView ∧ I s'.codeView) ?_
        fun _ s' hs' => ⟨_, hs'.2, fun _ => congrArg Prod.fst hs'.1⟩
      refine Ends.bind ((saveStackLine_view b).keeps I s hs) fun _ s₁ hs₁ => ?_
      exact Ends.bind ((saveCallLine_view b).keeps I s₁ hs₁) fun _ s₂ hs₂ => ⟨rfl, hs₂⟩

/-- **A code invariant holds in every reachable state.** -/
theorem Reach.code (hc : ctx.Aligned) (hI : CodeInvariant ctx I) (h₀ : I (ctx.codeSegBp, []))
    {s₀ s : St} {ph : Phase} (h : Reach b ctx s₀ ph s) : ph.Code I s := by
  induction h with
  | start => exact ⟨_, h₀, fun _ => rfl⟩
  | step _ hlive hrun ih =>
      have := phaseStep_keeps_code (b := b) hI ih hlive
      rwa [hrun] at this
  | stop h hlive hrun ih =>
      have hcode := phaseStep_keeps_code (b := b) hI ih hlive
      have hsafe := phaseStep_safe (b := b) hc (h.safe hc) hlive
      rw [hrun] at hcode hsafe
      exact ⟨_, hcode, fun hf => absurd hsafe.2.1 (by simp [hf])⟩
  | clear regs _ ih => exact ih

end Invariant

/-! ## Fetches inside the code segment -/

section Inside
variable {b : Build} {ctx : Ctx}

/-- While no advance starts at the last word, all executed words and the
instruction pointer are in the code segment. -/
def FetchInside (ctx : Ctx) (v : ℤ × List Event) : Prop :=
  (∀ p, .advance p ∈ v.2 → p + 4 < ctx.codeSegBp + ctx.codeSegSize) →
    ctx.InCode v.1 ∧ ∀ p w, .fetch p w ∈ v.2 → ctx.InCode p

theorem fetchInside_invariant : CodeInvariant ctx (FetchInside ctx) where
  fetch p w log h hadv := by
    have h := h fun q hq => hadv q (List.mem_append_left _ hq)
    refine ⟨h.1, fun q v hq => ?_⟩
    rcases List.mem_append.mp hq with hq | hq
    · exact h.2 q v hq
    · obtain ⟨rfl, -⟩ : q = p ∧ v = w := by simpa using hq
      exact h.1
  advance p log h hadv := by
    obtain ⟨⟨w, rfl, hw⟩, hlog⟩ := h fun q hq => hadv q (List.mem_append_left _ hq)
    have hlast := hadv _ (List.mem_append_right _ (List.mem_singleton_self _))
    refine ⟨⟨w + 1, by push_cast; ring, by omega⟩, fun q v hq => ?_⟩
    rcases List.mem_append.mp hq with hq | hq
    · exact hlog q v hq
    · simp at hq
  jump p q log h hq hadv := ⟨hq, (h hadv).2⟩

theorem mem_filter_isCode {log : List Event} {e : Event} (h : e.isCode = true) :
    e ∈ log.filter Event.isCode ↔ e ∈ log := by
  simp [List.mem_filter, h]

/-- **Fetches stay inside the code segment** in a run that never advances off its
last word. -/
theorem Reach.fetch_inside (hc : ctx.Aligned) (hpos : 0 < ctx.codeSegSize) {s₀ s : St}
    {ph : Phase} (h : Reach b ctx s₀ ph s)
    (hadv : ∀ p, .advance p ∈ s.log → p + 4 < ctx.codeSegBp + ctx.codeSegSize) :
    ∀ p w, .fetch p w ∈ s.log → ctx.InCode p := by
  have hstart : FetchInside ctx (ctx.codeSegBp, []) :=
    fun _ => ⟨⟨0, by simp, by simpa using hpos⟩, by simp⟩
  obtain ⟨q, hq⟩ := (h.code hc fetchInside_invariant hstart).view
  have hin := hq fun p hp => hadv p ((mem_filter_isCode rfl).mp hp)
  exact fun p w hp => hin.2 p w ((mem_filter_isCode rfl).mpr hp)

theorem dispatch_finish_run (b : Build) (ctx : Ctx) {s : St}
    (h : extrByOfs s.rinstrLine (ofsFromPtr s.curInstrPtr) = 1) :
    dispatch (macros b ctx) s =
      .ok .finish { s with haltFlag := true, log := s.log ++ [.fetch s.curInstrPtr 1] } := by
  have hop : extrNextInstr s = .ok 1 { s with log := s.log ++ [.fetch s.curInstrPtr 1] } := by
    rw [extrNextInstr, h]
  exact bind_ok hop

theorem decryptLog_not_code (b : Build) (seg : Seg) (p : ℤ) :
    ∀ e ∈ decryptLog b seg p, e.isCode = false := by
  cases b <;> simp [decryptLog, Event.isCode]

/-- A run whose first word is `FINISH` executes that word, and nothing else. -/
theorem reach_first_fetch (b : Build) (hc : ctx.Aligned) (s₀ : St)
    (hfirst : b.mode.decode (lines s₀.mem) (ctx.codeSegBp / 16) = fun _ => 1) :
    ∃ s, Reach b ctx s₀ .outro s ∧ s.log.filter Event.isCode = [.fetch ctx.codeSegBp 1] := by
  have hbp := hc.call_bp
  have hline : ctx.callSegBp ≤ 16 * (ctx.callSegBp / 16) := by omega
  have hentry := bispeCycleEntry_run b ctx (startState ctx s₀) hline
  have hdispatch : Reach b ctx s₀ .dispatch _ :=
    .step .start (fun _ => rfl) (bind_ok hentry)
  refine ⟨_, hdispatch.step (fun h => nomatch h) (bind_ok (dispatch_finish_run b ctx ?_)), ?_⟩
  · exact congrFun hfirst _
  have hnil (seg : Seg) (p : ℤ) : (decryptLog b seg p).filter Event.isCode = [] :=
    List.filter_eq_nil_iff.mpr fun e he => by simp [decryptLog_not_code b seg p e he]
  simp only [startState, List.filter_append, hnil, List.nil_append]
  rfl

/-- Memory can hold any plaintext in any one line, whatever the cipher. -/
theorem exists_first_line (c : Cipher) (k : ℤ) (x : Line) :
    ∃ s : St, (Build.mode (some c)).decode (lines s.mem) k = x := by
  let zero : Line := fun _ => 0
  let s : St := ⟨0, 0, 0, 0, 0, zero, zero, zero, 0, 0, 0, 0, false, 0,
    storeLine (fun _ => 0) (16 * (k - 1)) (vpxor x (c.decblk zero)), []⟩
  refine ⟨s, ?_⟩
  have hk : lines s.mem k = zero := by
    simp only [s, lines_storeLine]
    exact Function.update_of_ne (by omega) ..
  have hk' : lines s.mem (k - 1) = vpxor x (c.decblk zero) := by
    simp only [s, lines_storeLine, Function.update_self]
  funext i
  simp only [Chaining.Mode.decode, hk, hk', Build.mode, vpxor]
  rw [BitVec.xor_comm, BitVec.xor_assoc, BitVec.xor_self, BitVec.xor_zero]

/-- The code segment of an accepted buffer is one line shorter than the buffer,
unless the buffer is empty. -/
theorem createRuntimeCtx_codeSegSize (c : Cipher) {inv : InvokeCtx} (hacc : inv.Accepted)
    (buf : Buffers) : (createRuntimeCtx (some c) inv buf).codeSegSize + 16 =
      inv.codeBufSize.toNat ↔ 16 ≤ inv.codeBufSize.toNat := by
  have := hacc.2
  have hlt := inv.codeBufSize.isLt
  simp only [createRuntimeCtx, Build.ivSize, BitVec.toNat_sub, BitVec.toNat_ofNat]
  omega

/-- **When instruction fetch stays inside the code segment.**  The size of the
segment does not wrap, and no run that never advances off the last word executes a
word outside, if and only if the code buffer holds a line after its init vector. -/
theorem fetch_inside_iff (c : Cipher) (inv : InvokeCtx) (hacc : inv.Accepted) (buf : Buffers)
    (ctx : Ctx) (hctx : ctx = createRuntimeCtx (some c) inv buf) :
    (ctx.codeSegSize + 16 = inv.codeBufSize.toNat ∧
      ∀ s₀ ph s, Reach (some c) ctx s₀ ph s →
        (∀ p, .advance p ∈ s.log → p + 4 < ctx.codeSegBp + ctx.codeSegSize) →
        ∀ p w, .fetch p w ∈ s.log → ctx.InCode p) ↔
    32 ≤ inv.codeBufSize.toNat := by
  have hc : ctx.Aligned := hctx ▸ createRuntimeCtx_aligned (some c) hacc buf
  have hsize := createRuntimeCtx_codeSegSize c hacc buf
  rw [← hctx] at hsize
  have hdvd := hacc.2
  constructor
  · rintro ⟨hno, hruns⟩
    by_contra hlt
    have hempty : ctx.codeSegSize = 0 := by have := hsize.mp hno; omega
    obtain ⟨s₀, hfirst⟩ := exists_first_line c (ctx.codeSegBp / 16) fun _ => 1
    obtain ⟨s, hs, hlog⟩ := reach_first_fetch (some c) hc s₀ hfirst
    have hin := hruns s₀ .outro s hs (fun p hp => ?_) ctx.codeSegBp 1 ?_
    · obtain ⟨w, -, hw⟩ := hin
      omega
    · rw [← mem_filter_isCode rfl, hlog] at hp
      simp at hp
    · rw [← mem_filter_isCode rfl, hlog]
      exact List.mem_singleton_self _
  · intro hle
    have hno := hsize.mpr (by omega)
    exact ⟨hno, fun s₀ ph s h hadv => h.fetch_inside hc (by omega) hadv⟩

end Inside

theorem fetch_inside_iff_small :
    (smallCtx 32).codeSegSize + 16 = 32 ∧
      ∀ s₀ ph s, Reach (some (keyCipher 5)) (smallCtx 32) s₀ ph s →
        (∀ p, .advance p ∈ s.log → p + 4 < 32) →
          ∀ p w, .fetch p w ∈ s.log → (smallCtx 32).InCode p :=
  (fetch_inside_iff (keyCipher 5) (smallInvoke 32) (by decide) smallBuffers (smallCtx 32)
    rfl).mpr (by decide)

/-- An empty code buffer is accepted, and its segment size wraps around.  A code
segment of four `NOP`s is left without an error, and the word behind it is
executed. -/
theorem fetch_leaves_code_segment :
    ((smallInvoke 0).Accepted ∧ (smallCtx 0).codeSegSize = 2 ^ 64 - 16) ∧
    (smallInvoke 32).Accepted ∧
    ∃ s, Reach (some (keyCipher 5)) (smallCtx 32) nopState .dispatch s ∧
      .fetch 32 0 ∈ s.log ∧ ¬ (smallCtx 32).InCode 32 ∧ s.errorCode = 0 := by
  refine ⟨by decide, by decide, ?_⟩
  have h₁ : Reach (some (keyCipher 5)) (smallCtx 32) nopState .dispatch _ :=
    .step .start (fun _ => rfl) rfl
  have h₃ := (h₁.step (fun h => nomatch h) rfl).step (fun h => nomatch h) rfl
  have h₅ := (h₃.step (fun h => nomatch h) rfl).step (fun h => nomatch h) rfl
  refine ⟨_, h₅.step (fun h => nomatch h) rfl, by decide, ?_, rfl⟩
  rintro ⟨w, hw, hlt⟩
  have hbp : (smallCtx 32).codeSegBp = 16 := rfl
  have hsize : (smallCtx 32).codeSegSize = 16 := by decide
  omega

end Bispe
