import Bispe.Backend.Cycles
import Bispe.Lib.Ring

/-!
# The print buffer

`PRINT` writes to a ring buffer whose only record is `print_ptr`, and
`invoke_interpreter` takes the distance of that pointer from the start of the buffer for
the number of printed values.  The buffer holds what was printed since the pointer was
last at the start; when the last cell is filled the pointer is there again.

## Main definitions

* `PrintRing` — the invariant of the print buffer.
* `getPrintCount`, `copyOutput` — what `invoke_interpreter` hands to the caller.
* `Delivers` — all that was printed is handed over.
-/

namespace Bispe

open Effect Chaining

/-- The number of dwords of the print buffer. -/
def Ctx.printWords (ctx : Ctx) : ℕ := ctx.printSegSize / 4

/-- The address of a dword of the print buffer. -/
def Ctx.printCell (ctx : Ctx) (i : ℕ) : ℤ := ctx.printSegBp + 4 * i

/-- No line write has covered the address. -/
def Untouched (log : List Event) (a : ℤ) : Prop :=
  ∀ seg p, .write seg p ∈ log → ¬ (p ≤ a ∧ a < p + 16)

/-- The print pointer is at the next cell of the ring, and the cells below it hold the
recent values, where no line has been written over them. -/
structure PrintRing (ctx : Ctx) (s : St) : Prop where
  ptr : s.printPtr = ctx.printCell (Ring.next ctx.printWords (printed s.log))
  cell : ∀ i w, (Ring.recent ctx.printWords (printed s.log))[i]? = some w →
    Untouched s.log (ctx.printCell i) → s.mem (ctx.printCell i) = w

section Invariant
variable {b : Build} {ctx : Ctx} {s s' : St} {α : Type}

theorem Untouched.of_append {log es : List Event} {a : ℤ} (h : Untouched (log ++ es) a) :
    Untouched log a := fun seg p hp => h seg p (List.mem_append_left _ hp)

/-- Events that print nothing, and that account for the memory that is changed. -/
theorem PrintRing.quiet (h : PrintRing ctx s) (es : List Event) (hes : printed es = [])
    (hlog : s'.log = s.log ++ es) (hptr : s'.printPtr = s.printPtr)
    (hmem : ∀ a, Untouched s'.log a → s'.mem a = s.mem a) : PrintRing ctx s' := by
  have hprinted : printed s'.log = printed s.log := by
    rw [hlog, printed, List.filterMap_append, ← printed, ← printed, hes, List.append_nil]
  refine ⟨by rw [hptr, h.ptr, hprinted], fun i w hw hun => ?_⟩
  rw [hprinted] at hw
  rw [hmem _ hun]
  rw [hlog] at hun
  exact h.cell i w hw hun.of_append

theorem setError_prints (e : Err) : Stable (PrintRing ctx) (setError e : M α) :=
  ⟨fun _ hs => ⟨hs.ptr, hs.cell⟩⟩

theorem hang_prints : Stable (PrintRing ctx) (hang : M α) := ⟨fun _ hs => hs⟩

theorem readLine_prints (seg : Seg) (p : ℤ) : Stable (PrintRing ctx) (readLine seg p) := by
  exact ⟨fun s hs => hs.quiet [.read seg p] rfl rfl rfl fun _ _ => rfl⟩

theorem writeLine_prints (seg : Seg) (p : ℤ) (x : Line) :
    Stable (PrintRing ctx) (writeLine seg p x) := by
  refine ⟨fun s hs => ?_⟩
  refine hs.quiet [.write seg p] rfl rfl rfl fun a hun => storeLine_of_outside _ _ ?_
  have := hun seg p (List.mem_append_right _ (List.mem_singleton_self _))
  omega

theorem decryptMemoryCbc_prints (seg : Seg) (p : ℤ) :
    Stable (PrintRing ctx) (decryptMemoryCbc b seg p) := by
  refine .bind (readLine_prints seg p) fun rstate => ?_
  cases b with
  | none => exact .pure _
  | some c => exact .bind (readLine_prints _ _) fun _ => .pure _

theorem encryptRegCbc_prints (seg : Seg) (x : Line) (p : ℤ) :
    Stable (PrintRing ctx) (encryptRegCbc b seg x p) := by
  cases b with
  | none => exact writeLine_prints ..
  | some c => exact .bind (readLine_prints _ _) fun _ => writeLine_prints ..

theorem encryptLoop_prints (c : Cipher) (seg : Seg) (n : ℕ) (x : Line) (dest last : ℤ) :
    Stable (PrintRing ctx) (encryptLoop c seg n x dest last) := by
  induction n generalizing x dest with
  | zero => exact .ite (writeLine_prints ..) hang_prints
  | succ n ih =>
      refine .ite (writeLine_prints ..) ?_
      refine .bind (readLine_prints _ _) fun _ => ?_
      refine .bind (readLine_prints _ _) fun _ => ?_
      exact .bind (writeLine_prints ..) fun _ => ih ..

theorem encryptRegCbcChain_prints (seg : Seg) (x : Line) (dest last : ℤ) :
    Stable (PrintRing ctx) (encryptRegCbcChain b seg x dest last) := by
  cases b with
  | none => exact writeLine_prints ..
  | some c =>
      refine .bind (.modify fun s hs => ?_) fun _ => ?_
      · exact hs.quiet [.chain dest last] rfl rfl rfl fun _ _ => rfl
      exact .bind (readLine_prints _ _) fun _ => encryptLoop_prints ..

/-- A change of registers only. -/
theorem modify_prints {f : St → St} (hlog : ∀ s, (f s).log = s.log)
    (hptr : ∀ s, (f s).printPtr = s.printPtr) (hmem : ∀ s, (f s).mem = s.mem) :
    Stable (PrintRing ctx) (modify f : M Unit) := by
  refine .modify fun s hs => ⟨?_, ?_⟩
  · rw [hlog, hptr]
    exact hs.ptr
  · rw [hlog, hmem]
    exact hs.cell

theorem fetchInstrLine_prints : Stable (PrintRing ctx) (fetchInstrLine b) :=
  .bind .get fun _ => .bind (decryptMemoryCbc_prints ..) fun _ =>
    modify_prints (fun _ => rfl) (fun _ => rfl) fun _ => rfl

theorem extrNextInstr_prints : Stable (PrintRing ctx) extrNextInstr :=
  ⟨fun s hs => hs.quiet [.fetch s.curInstrPtr _] rfl rfl rfl fun _ _ => rfl⟩

theorem incInstrPtr_prints : Stable (PrintRing ctx) (incInstrPtr b) := by
  refine .bind .get fun _ => .bind (.modify fun s hs => ?_) fun _ => .ite (.pure _) ?_
  · exact hs.quiet [.advance s.curInstrPtr] rfl rfl rfl fun _ _ => rfl
  · exact .bind (decryptMemoryCbc_prints ..) fun _ =>
      modify_prints (fun _ => rfl) (fun _ => rfl) fun _ => rfl

theorem jumpTo_prints (p : ℤ) : Stable (PrintRing ctx) (jumpTo b p) :=
  .bind (modify_prints (fun _ => rfl) (fun _ => rfl) fun _ => rfl) fun _ => fetchInstrLine_prints

theorem calcJmpTarget_prints (w : Word) : Stable (PrintRing ctx) (calcJmpTarget ctx w) :=
  .ite (setError_prints _) (.pure _)

theorem fetchStackLine_prints : Stable (PrintRing ctx) (fetchStackLine b) :=
  .bind .get fun _ => .bind (decryptMemoryCbc_prints ..) fun _ =>
    modify_prints (fun _ => rfl) (fun _ => rfl) fun _ => rfl

theorem incStackPtr_prints : Stable (PrintRing ctx) (incStackPtr b ctx) := by
  refine .bind .get fun s => .bind ?_ fun _ => .ite (.pure _) ?_
  · exact modify_prints (fun _ => rfl) (fun _ => rfl) fun _ => rfl
  · exact .bind (encryptRegCbc_prints ..) fun _ => .ite (setError_prints _) (.pure _)

theorem decStackPtr_prints : Stable (PrintRing ctx) (decStackPtr b ctx) := by
  refine .bind .get fun s => .bind ?_ fun _ => .ite (.pure _) <| .ite (setError_prints _) ?_
  · exact modify_prints (fun _ => rfl) (fun _ => rfl) fun _ => rfl
  · exact .bind (decryptMemoryCbc_prints ..) fun _ =>
      modify_prints (fun _ => rfl) (fun _ => rfl) fun _ => rfl

theorem fetchCallLine_prints (target : ℤ) :
    Stable (PrintRing ctx) (fetchCallLine b ctx target) := by
  refine .bind .get fun s => .ite (.pure _) <| .ite (setError_prints _) ?_
  refine .bind (encryptRegCbcChain_prints ..) fun _ => ?_
  refine .bind (decryptMemoryCbc_prints ..) fun _ => ?_
  exact modify_prints (fun _ => rfl) (fun _ => rfl) fun _ => rfl

theorem forceCallLineFetch_prints (target : ℤ) :
    Stable (PrintRing ctx) (forceCallLineFetch b ctx target) :=
  .ite (setError_prints _) <| .bind (decryptMemoryCbc_prints ..) fun _ =>
    modify_prints (fun _ => rfl) (fun _ => rfl) fun _ => rfl

theorem fetchCallElement_prints (d : ℕ) : Stable (PrintRing ctx) (fetchCallElement b ctx d) :=
  .bind .get fun _ => .bind (fetchCallLine_prints _) fun _ => .bind .get fun _ => .pure _

theorem saveCallElement_prints (d : ℕ) (w : Word) :
    Stable (PrintRing ctx) (saveCallElement b ctx d w) :=
  .bind .get fun _ => .bind (fetchCallLine_prints _) fun _ =>
    modify_prints (fun _ => rfl) (fun _ => rfl) fun _ => rfl

theorem incCallPtr_prints (d : ℕ) : Stable (PrintRing ctx) (incCallPtr ctx d) :=
  .bind (modify_prints (fun _ => rfl) (fun _ => rfl) fun _ => rfl) fun _ =>
    .bind .get fun _ => .ite (setError_prints _) (.pure _)

theorem decCallPtr_prints (d : ℕ) : Stable (PrintRing ctx) (decCallPtr b ctx d) := by
  refine .bind .get fun _ => .bind ?_ fun _ => .bind .get fun _ =>
    .ite (setError_prints _) <| .ite (.pure _) ?_
  · exact modify_prints (fun _ => rfl) (fun _ => rfl) fun _ => rfl
  · refine .bind (encryptRegCbcChain_prints ..) fun _ =>
      .bind (decryptMemoryCbc_prints ..) fun _ => ?_
    exact modify_prints (fun _ => rfl) (fun _ => rfl) fun _ => rfl

/-- `PRINT` fills the next cell of the ring. -/
theorem printWord_prints (hc : ctx.Aligned) (w : Word) :
    Stable (PrintRing ctx) (printWord ctx w) := by
  have hsize : 4 * ctx.printWords = ctx.printSegSize := Nat.mul_div_cancel' hc.print_size
  have hwords : 0 < ctx.printWords := by
    have := hc.print_pos
    omega
  refine ⟨fun s hs => ?_⟩
  have hprinted : printed (s.log ++ [.print s.printPtr w]) = printed s.log ++ [w] := by
    simp [printed, Event.value?]
  have hnext := Ring.next_push hwords (printed s.log) w
  have hptr := hs.ptr
  -- the cells below the next one, with the new one among them
  have hcell : ∀ i v, (Ring.recent ctx.printWords (printed s.log ++ [w]))[i]? = some v →
      Untouched (s.log ++ [.print s.printPtr w]) (ctx.printCell i) →
      Function.update s.mem s.printPtr w (ctx.printCell i) = v := by
    intro i v hv hun
    rw [hptr]
    rcases Ring.getElem?_recent_push hwords hv with ⟨rfl, rfl⟩ | ⟨hi, hold⟩
    · rw [Function.update_self]
    · rw [Function.update_of_ne (by unfold Ctx.printCell; omega)]
      exact hs.cell i v hold hun.of_append
  have hroom : s.printPtr + 4 < ctx.printSegBp + ctx.printSegSize ↔
      Ring.next ctx.printWords (printed s.log) + 1 < ctx.printWords := by
    rw [hptr, Ctx.printCell]
    omega
  rw [printWord, bind_ok (run_get s), bind_ok (run_modify _ s)]
  by_cases hlt : s.printPtr + 4 < ctx.printSegBp + ctx.printSegSize
  · rw [if_pos hlt]
    refine ⟨?_, ?_⟩
    · change s.printPtr + 4 = _
      rw [hprinted, hnext, if_pos (hroom.mp hlt), hptr, Ctx.printCell, Ctx.printCell]
      push_cast
      ring
    · rw [hprinted]
      exact hcell
  · rw [if_neg hlt]
    refine ⟨?_, ?_⟩
    · change ctx.printSegBp = _
      rw [hprinted, hnext, if_neg (mt hroom.mpr hlt), Ctx.printCell]
      simp
    · rw [hprinted]
      exact hcell

theorem macros_print (hc : ctx.Aligned) :
    MacrosRel (MonadRel.keeping (PrintRing ctx) fun _ s => PrintRing ctx s) Eq Eq (macros b ctx)
      (macros b ctx) where
  argc := rfl
  argv := rfl
  error _ e := fun s hs => ⟨rfl, rfl, (setError_prints (α := Unit) e).keeps s hs⟩
  incAndCheckCycleCnt := Keeps.rel fun _ hs => ⟨hs.ptr, hs.cell⟩
  extrNextInstr := extrNextInstr_prints.keeps.rel
  incInstrPtr := incInstrPtr_prints.keeps.rel
  calcJmpTarget w := (calcJmpTarget_prints w).keeps.rel
  jumpTo p _ h := h ▸ (jumpTo_prints p).keeps.rel
  retAddr := Keeps.rel fun _ hs => hs
  extrStack := Keeps.rel fun _ hs => hs
  insStack _ := Keeps.rel fun _ hs => ⟨hs.ptr, hs.cell⟩
  incStackPtr := incStackPtr_prints.keeps.rel
  decStackPtr := decStackPtr_prints.keeps.rel
  fetchCallElement d _ := (fetchCallElement_prints d).keeps.rel
  saveCallElement d w _ := (saveCallElement_prints d w).keeps.rel
  incCallPtr d _ := (incCallPtr_prints d).keeps.rel
  decCallPtr d _ := (decCallPtr_prints d).keeps.rel
  print w := (printWord_prints hc w).keeps.rel

/-- **Every instruction keeps the print ring.** -/
theorem dispatch_prints (hc : ctx.Aligned) : Stable (PrintRing ctx) (dispatch (macros b ctx)) :=
  ⟨Keeps.of_rel (dispatch_rel (macros_print hc) (Keeps.rel fun _ hs => ⟨hs.ptr, hs.cell⟩))⟩

theorem bispeCycleEntry_prints : Stable (PrintRing ctx) (bispeCycleEntry b ctx) := by
  refine .bind (modify_prints (fun _ => rfl) (fun _ => rfl) fun _ => rfl) fun _ => ?_
  refine .bind (modify_prints (fun _ => rfl) (fun _ => rfl) fun _ => rfl) fun _ => ?_
  refine .bind fetchInstrLine_prints fun _ => .bind fetchStackLine_prints fun _ => ?_
  exact .bind .get fun _ => forceCallLineFetch_prints _

theorem bispeCycleOutro_prints : Stable (PrintRing ctx) (bispeCycleOutro b) := by
  refine .bind (.bind .get fun _ => encryptRegCbc_prints ..) fun _ => ?_
  refine .bind (.bind .get fun _ => encryptRegCbcChain_prints ..) fun _ => ?_
  exact modify_prints (fun _ => rfl) (fun _ => rfl) fun _ => rfl

theorem phaseStep_prints (hc : ctx.Aligned) (ph : Phase) :
    Stable (PrintRing ctx) (phaseStep b ctx ph) := by
  cases ph with
  | idle => exact .bind bispeCycleEntry_prints fun _ => .pure _
  | dispatch =>
      refine .bind (dispatch_prints hc) fun c => ?_
      cases c with
      | next => exact .pure _
      | cycleEnd => exact .pure _
      | finish => exact .pure _
  | outro => exact .bind bispeCycleOutro_prints fun _ => .pure _

/-- **The print ring is kept by every run.** -/
theorem Reach.prints (hc : ctx.Aligned) {s₀ : St} {ph : Phase} (h : Reach b ctx s₀ ph s) :
    PrintRing ctx s := by
  induction h with
  | start => exact ⟨by simp [startState, printed, Ctx.printCell, Ring.next],
      fun i w hw => by simp [startState, printed, Ring.recent] at hw⟩
  | @step ph _ s _ _ _ hrun ih =>
      have := (phaseStep_prints (b := b) hc ph).keeps s ih
      rwa [hrun] at this
  | @stop ph s _ _ _ _ hrun ih =>
      have := (phaseStep_prints (b := b) hc ph).keeps s ih
      rwa [hrun] at this
  | clear regs _ ih => exact ⟨ih.ptr, ih.cell⟩

end Invariant

/-! ## What the caller gets -/

/-- The print segment does not overlap the segments of the two stacks. -/
structure Ctx.PrintApart (ctx : Ctx) : Prop where
  stack : ctx.stackSegBp + ctx.stackSegSize ≤ ctx.printSegBp ∨
    ctx.printSegBp + ctx.printSegSize ≤ ctx.stackSegBp
  call : ctx.callSegBp + ctx.callSegSize ≤ ctx.printSegBp ∨
    ctx.printSegBp + ctx.printSegSize ≤ ctx.callSegBp

theorem Ctx.Apart.printApart {ctx : Ctx} (hd : ctx.Apart) : ctx.PrintApart where
  stack := by
    have := hd.stack_print
    omega
  call := by
    have := hd.call_print
    omega

/-- `bispe_get_print_count`. -/
def getPrintCount (ctx : Ctx) (s : St) : ℕ := ((s.printPtr - ctx.printSegBp) / 4).toNat

/-- What is copied to the caller, and the number of bytes that is returned. -/
structure Output where
  words : List Word
  bytesWritten : ℕ

/-- The part of `invoke_interpreter` after the interpreter has ended with a result. -/
def copyOutput (inv : InvokeCtx) (ctx : Ctx) (interpreterResult : ℤ) (s : St) : Output :=
  if interpreterResult < 0 then ⟨[], 0⟩
  else if 0 < inv.outBufSize.toNat ∧ 0 < getPrintCount ctx s then
    ⟨(List.range (getPrintCount ctx s)).map fun i => s.mem (ctx.printCell i),
      4 * getPrintCount ctx s⟩
  else ⟨[], 0⟩

/-- The caller gets all that was printed. -/
def Delivers (inv : InvokeCtx) (ctx : Ctx) (s : St) : Prop :=
  (copyOutput inv ctx s.errorCode s).bytesWritten = 4 * (printed s.log).length ∧
    (copyOutput inv ctx s.errorCode s).words = printed s.log

instance (inv : InvokeCtx) (ctx : Ctx) (s : St) : Decidable (Delivers inv ctx s) := by
  unfold Delivers; infer_instance

section Output
variable {b : Build} {ctx : Ctx} {s₀ s : St} {ph : Phase}

/-- **The cells below the print pointer hold the recent values.** -/
theorem Reach.print_cells (hc : ctx.Aligned) (hd : ctx.PrintApart) (h : Reach b ctx s₀ ph s)
    {i : ℕ} {w : Word} (hw : (Ring.recent ctx.printWords (printed s.log))[i]? = some w) :
    s.mem (ctx.printCell i) = w := by
  refine (h.prints hc).cell i w hw fun seg p hp ⟨hlo, hhi⟩ => ?_
  have hsize : 4 * ctx.printWords = ctx.printSegSize := Nat.mul_div_cancel' hc.print_size
  have hpos := hc.print_pos
  have hnext := Ring.next_lt (show 0 < ctx.printWords by omega) (printed s.log)
  have hi : i < Ring.next ctx.printWords (printed s.log) := by
    have := (List.getElem?_eq_some_iff.mp hw).1
    rwa [Ring.length_recent] at this
  have hwithin := (h.safe hc).contained.within _ hp
  have hstack := hd.stack
  have hcall := hd.call
  unfold Ctx.printCell at hlo hhi
  cases seg with
  | code => exact hwithin
  | stack =>
      obtain ⟨-, hlo', hhi'⟩ := hwithin
      simp only [Ctx.segBp, Ctx.segSize] at hlo' hhi'
      omega
  | call =>
      obtain ⟨-, hlo', hhi'⟩ := hwithin
      simp only [Ctx.segBp, Ctx.segSize] at hlo' hhi'
      omega

theorem Reach.getPrintCount_eq (hc : ctx.Aligned) (h : Reach b ctx s₀ ph s) :
    getPrintCount ctx s = Ring.next ctx.printWords (printed s.log) := by
  rw [getPrintCount, (h.prints hc).ptr, Ctx.printCell]
  omega

/-- **The caller gets the recent values of the ring.** -/
theorem Reach.copyOutput_eq (hc : ctx.Aligned) (hd : ctx.PrintApart) (h : Reach b ctx s₀ ph s)
    {inv : InvokeCtx} (hout : 0 < inv.outBufSize.toNat) :
    copyOutput inv ctx s.errorCode s = ⟨Ring.recent ctx.printWords (printed s.log),
      4 * Ring.next ctx.printWords (printed s.log)⟩ := by
  have hwords := Ring.map_range_eq_recent (fun i => s.mem (ctx.printCell i))
    fun i w hw => h.print_cells hc hd hw
  rw [copyOutput, if_neg (by omega), h.getPrintCount_eq hc]
  by_cases hpos : 0 < Ring.next ctx.printWords (printed s.log)
  · rw [if_pos ⟨hout, hpos⟩, hwords]
  · rw [if_neg fun hboth => hpos hboth.2]
    have hzero : Ring.next ctx.printWords (printed s.log) = 0 := by omega
    have hnil : Ring.recent ctx.printWords (printed s.log) = [] := by
      rw [← List.length_eq_zero_iff, Ring.length_recent, hzero]
    rw [hnil, hzero]

end Output

/-- An invocation with room for one value. -/
def oneWordInvoke : InvokeCtx := { smallInvoke 32 with outBufSize := 4 }

end Bispe
