import Bispe.Backend.Interpreter
import Bispe.Backend.Lines

/-!
# Arbitrary bytecode stays inside the data segments

Bounds are checked at line crossings only, and against one end of a segment only.
What makes the checks sufficient is a relation between the pointers that every
macro keeps: both stack pointers lie in their segment, and the loaded call line
lies in the call segment at or below the call pointer.  No instruction handler
touches the state but through the macros, so the relation holds for every word
sequence that is fetched.

## Main definitions

* `Ctx.Aligned` — what is assumed of the published segments.
* `Event.Within` — a memory access inside the data segments.
* `Inside` — the invariant of a running cycle.
* `SavedInside` — the invariant between two cycles.
* `Reach.safe` — what holds in every reachable state.
-/

namespace Bispe

open Effect Chaining

/-- The segments are aligned to lines, the two stacks have at least one line, and
the print buffer has at least one dword. -/
structure Ctx.Aligned (ctx : Ctx) : Prop where
  code_bp : 16 ∣ ctx.codeSegBp
  stack_bp : 16 ∣ ctx.stackSegBp
  call_bp : 16 ∣ ctx.callSegBp
  print_bp : 16 ∣ ctx.printSegBp
  stack_size : 16 ∣ ctx.stackSegSize
  call_size : 16 ∣ ctx.callSegSize
  print_size : 4 ∣ ctx.printSegSize
  stack_pos : 0 < ctx.stackSegSize
  call_pos : 0 < ctx.callSegSize
  print_pos : 0 < ctx.printSegSize

/-- **Every accepted invocation runs on aligned segments.** -/
theorem createRuntimeCtx_aligned (b : Build) {inv : InvokeCtx} (hacc : inv.Accepted)
    (buf : Buffers) : (createRuntimeCtx b inv buf).Aligned := by
  obtain ⟨hcode, hstack, hcall, hprint⟩ :=
    And.intro buf.code_al (And.intro buf.stack_al (And.intro buf.call_al buf.print_al))
  have hiv : 16 ∣ (b.ivSize : ℤ) := by cases b <;> simp [Build.ivSize]
  have hpos (given : ℕ) : 0 < orDefault given defaultSize := orDefault_pos given (by decide)
  have hout : 4 ∣ orDefault inv.outBufSize.toNat defaultSize := by
    have := hacc.1
    unfold orDefault defaultSize
    split <;> omega
  exact {
    code_bp := by simp only [createRuntimeCtx]; omega
    stack_bp := by simp only [createRuntimeCtx]; omega
    call_bp := by simp only [createRuntimeCtx]; omega
    print_bp := by simp only [createRuntimeCtx]; omega
    stack_size := Nat.dvd_mul_left ..
    call_size := Nat.dvd_mul_left ..
    print_size := hout
    stack_pos := Nat.mul_pos (hpos _) (by decide)
    call_pos := Nat.mul_pos (hpos _) (by decide)
    print_pos := hpos _ }

def Ctx.segBp (ctx : Ctx) : Seg → ℤ
  | .code => ctx.codeSegBp
  | .stack => ctx.stackSegBp
  | .call => ctx.callSegBp

def Ctx.segSize (ctx : Ctx) : Seg → ℕ
  | .code => ctx.codeSegSize
  | .stack => ctx.stackSegSize
  | .call => ctx.callSegSize

/-- The access stays inside its segment, except that the line before the first
one (the init vector) may be read.  The code segment is only read.  A chain
rewrite starts at or below the line where it ends. -/
def Event.Within (ctx : Ctx) : Event → Prop
  | .fetch _ _ => True
  | .advance _ => True
  | .read .code _ => True
  | .read seg p => 16 ∣ p ∧ ctx.segBp seg - 16 ≤ p ∧ p + 16 ≤ ctx.segBp seg + ctx.segSize seg
  | .write .code _ => False
  | .write seg p => 16 ∣ p ∧ ctx.segBp seg ≤ p ∧ p + 16 ≤ ctx.segBp seg + ctx.segSize seg
  | .chain dest last => 16 ∣ dest ∧ 16 ∣ last ∧ dest ≤ last
  | .print p _ => ctx.printSegBp ≤ p ∧ p + 4 ≤ ctx.printSegBp + ctx.printSegSize

/-- The address lies in one of the three data segments. -/
def Ctx.InData (ctx : Ctx) (a : ℤ) : Prop :=
  (ctx.stackSegBp ≤ a ∧ a < ctx.stackSegBp + ctx.stackSegSize) ∨
  (ctx.callSegBp ≤ a ∧ a < ctx.callSegBp + ctx.callSegSize) ∨
  (ctx.printSegBp ≤ a ∧ a < ctx.printSegBp + ctx.printSegSize)

/-- What a run has done so far: all accesses are within the segments, and memory
outside of them is as it was. -/
structure Contained (ctx : Ctx) (m₀ mem : ℤ → Word) (log : List Event) : Prop where
  within : ∀ e ∈ log, e.Within ctx
  frame : ∀ a, ¬ ctx.InData a → mem a = m₀ a

/-- The pointer lies in the segment of `size` bytes at `bp`, on a dword. -/
structure PtrInside (bp : ℤ) (size : ℕ) (p : ℤ) : Prop where
  al : 4 ∣ p
  lo : bp ≤ p
  hi : p < bp + size

/-- The loaded call line lies in the call segment, at or below the call pointer. -/
structure LineInside (bp p line : ℤ) : Prop where
  al : 16 ∣ line
  lo : bp ≤ line
  hi : line ≤ p

/-- The invariant of a running cycle. -/
structure Inside (ctx : Ctx) (m₀ : ℤ → Word) (s : St) : Prop where
  contained : Contained ctx m₀ s.mem s.log
  print : PtrInside ctx.printSegBp ctx.printSegSize s.printPtr
  instr : 4 ∣ s.curInstrPtr
  stack : PtrInside ctx.stackSegBp ctx.stackSegSize s.curStackPtr
  call : PtrInside ctx.callSegBp ctx.callSegSize s.curCallPtr
  line : LineInside ctx.callSegBp s.curCallPtr s.curCallLine

/-- Between two cycles the pointers are in memory. -/
structure SavedInside (ctx : Ctx) (m₀ : ℤ → Word) (s : St) : Prop where
  contained : Contained ctx m₀ s.mem s.log
  print : PtrInside ctx.printSegBp ctx.printSegSize s.printPtr
  instr : 4 ∣ s.instrPtr
  stack : PtrInside ctx.stackSegBp ctx.stackSegSize s.stackPtr
  call : PtrInside ctx.callSegBp ctx.callSegSize s.callPtr

/-- A handler that stops does so through an error label. -/
def StopsWithin (ctx : Ctx) (m₀ : ℤ → Word) (e : Stop) (s : St) : Prop :=
  e ≠ .hang ∧ s.haltFlag = true ∧ Contained ctx m₀ s.mem s.log

section Macros
variable {b : Build} {ctx : Ctx} {m₀ : ℤ → Word}

/-! ## Single accesses -/

theorem Contained.append {mem mem' : ℤ → Word} {log es : List Event}
    (h : Contained ctx m₀ mem log) (hmem : ∀ a, ¬ ctx.InData a → mem' a = mem a)
    (hes : ∀ e ∈ es, e.Within ctx) : Contained ctx m₀ mem' (log ++ es) where
  within e he := (List.mem_append.mp he).elim (h.within e) (hes e)
  frame a ha := (hmem a ha).trans (h.frame a ha)

/-- Reading leaves memory as it is. -/
theorem Contained.read {mem : ℤ → Word} {log es : List Event} (h : Contained ctx m₀ mem log)
    (hes : ∀ e ∈ es, e.Within ctx) : Contained ctx m₀ mem (log ++ es) :=
  h.append (fun _ _ => rfl) hes

theorem decryptLog_within_code (p : ℤ) : ∀ e ∈ decryptLog b .code p, e.Within ctx := by
  cases b <;> simp [decryptLog, Event.Within]

theorem decryptLog_within {seg : Seg} {k : ℤ} (hlo : ctx.segBp seg ≤ 16 * k)
    (hhi : 16 * k + 16 ≤ ctx.segBp seg + ctx.segSize seg) :
    ∀ e ∈ decryptLog b seg (16 * k), e.Within ctx := by
  have h1 : (Event.read seg (16 * k)).Within ctx := by
    cases seg
    · trivial
    all_goals exact ⟨by omega, by omega, hhi⟩
  have h2 : (Event.read seg (16 * k - 16)).Within ctx := by
    cases seg
    · trivial
    all_goals exact ⟨by omega, by omega, by omega⟩
  cases b <;> simp [decryptLog, h1, h2]

theorem encryptLog_within {seg : Seg} (hseg : seg ≠ .code) {k : ℤ}
    (hlo : ctx.segBp seg ≤ 16 * k) (hhi : 16 * k + 16 ≤ ctx.segBp seg + ctx.segSize seg) :
    ∀ e ∈ encryptLog b seg (16 * k), e.Within ctx := by
  have h1 : (Event.write seg (16 * k)).Within ctx := by
    cases seg
    · exact (hseg rfl).elim
    all_goals exact ⟨by omega, hlo, hhi⟩
  have h2 : (Event.read seg (16 * k - 16)).Within ctx := by
    cases seg
    · trivial
    all_goals exact ⟨by omega, by omega, by omega⟩
  cases b <;> simp [encryptLog, h1, h2]

/-- Every access of a chain rewrite between two lines of the call segment. -/
theorem Event.InChain.within {k l : ℤ} {e : Event} (h : e.InChain .call k l) (hkl : k ≤ l)
    (hlo : ctx.callSegBp ≤ 16 * k) (hhi : 16 * l + 16 ≤ ctx.callSegBp + ctx.callSegSize) :
    e.Within ctx := by
  cases e with
  | fetch p w => trivial
  | advance p => trivial
  | read seg p =>
      obtain ⟨rfl, j, rfl, h1, h2⟩ := h
      exact ⟨⟨j, rfl⟩, by simp only [Ctx.segBp]; omega,
        by simp only [Ctx.segBp, Ctx.segSize]; omega⟩
  | write seg p =>
      obtain ⟨rfl, j, rfl, h1, h2⟩ := h
      exact ⟨⟨j, rfl⟩, by simp only [Ctx.segBp]; omega,
        by simp only [Ctx.segBp, Ctx.segSize]; omega⟩
  | chain d d' =>
      obtain ⟨rfl, rfl⟩ := h
      exact ⟨⟨k, rfl⟩, ⟨l, rfl⟩, by omega⟩
  | print p w => exact h.elim

/-! ## Instruction line -/

theorem setError_keeps {α : Type} (e : Err) :
    Keeps (Inside ctx m₀) (StopsWithin ctx m₀) (setError e : M α) :=
  fun _ hs => ⟨by simp, rfl, hs.contained⟩

theorem extrNextInstr_keeps : Keeps (Inside ctx m₀) (StopsWithin ctx m₀) extrNextInstr :=
  fun _ hs => { hs with contained := hs.contained.read (by simp [Event.Within]) }

theorem fetchInstrLine_keeps : Keeps (Inside ctx m₀) (StopsWithin ctx m₀) (fetchInstrLine b) := by
  intro s hs
  rw [fetchInstrLine_run]
  exact { hs with contained := hs.contained.read (decryptLog_within_code _) }

theorem incInstrPtr_keeps : Keeps (Inside ctx m₀) (StopsWithin ctx m₀) (incInstrPtr b) := by
  intro s hs
  have hal := hs.instr
  have hal' : 4 ∣ s.curInstrPtr + 4 := by omega
  have hcont : Contained ctx m₀ s.mem (s.log ++ [.advance s.curInstrPtr]) :=
    hs.contained.read (by simp [Event.Within])
  rw [incInstrPtr, bind_ok (run_get s), bind_ok (run_modify _ s)]
  split
  · exact { hs with contained := hcont, instr := hal' }
  · next h =>
    have hk : s.curInstrPtr + 4 = 16 * ((s.curInstrPtr + 4) / 16) := by
      unfold ofsFromPtr at h; omega
    rw [hk, bind_ok (decryptMemoryCbc_run ..)]
    exact { hs with
      contained := hcont.read (decryptLog_within_code _)
      instr := hk ▸ hal' }

theorem jumpTo_keeps {target : ℤ} (h : 4 ∣ target) :
    Keeps (Inside ctx m₀) (StopsWithin ctx m₀) (jumpTo b target) := by
  intro s hs
  rw [jumpTo, bind_ok (run_modify _ s)]
  exact fetchInstrLine_keeps _ { hs with instr := h }

/-! ## Stack line -/

/-- Writing the line of the stack pointer back. -/
theorem saveStack_contained (hc : ctx.Aligned) {mem : ℤ → Word} {log : List Event} {p : ℤ}
    (h : Contained ctx m₀ mem log) (hp : PtrInside ctx.stackSegBp ctx.stackSegSize p) (x : Line) :
    Contained ctx m₀ (storeLine mem (16 * (p / 16)) (b.mode.link x (lines mem (p / 16 - 1))))
      (log ++ encryptLog b .stack (16 * (p / 16))) := by
  obtain ⟨hal, hlo, hhi⟩ := hp
  have hbp := hc.stack_bp
  have hsz := hc.stack_size
  refine h.append (fun a ha => storeLine_of_outside _ _ ?_) (encryptLog_within (by simp) ?_ ?_)
  · unfold Ctx.InData at ha; omega
  · simp only [Ctx.segBp]; omega
  · simp only [Ctx.segBp, Ctx.segSize]; omega

theorem incStackPtr_keeps (hc : ctx.Aligned) :
    Keeps (Inside ctx m₀) (StopsWithin ctx m₀) (incStackPtr b ctx) := by
  intro s hs
  obtain ⟨hal, hlo, hhi⟩ := hs.stack
  have hbp := hc.stack_bp
  have hsz := hc.stack_size
  have hnext (h : s.curStackPtr + 4 < ctx.stackSegBp + ctx.stackSegSize) :
      PtrInside ctx.stackSegBp ctx.stackSegSize (s.curStackPtr + 4) := ⟨by omega, by omega, h⟩
  rw [incStackPtr, bind_ok (run_get s), bind_ok (run_modify _ s)]
  split
  · next h =>
    unfold ofsFromPtr at h
    exact { hs with stack := hnext (by omega) }
  · have hcont := saveStack_contained (b := b) hc hs.contained hs.stack s.rstackLine
    rw [alignPtr_eq, bind_ok (encryptRegCbc_run ..)]
    split
    · exact ⟨by simp, rfl, hcont⟩
    · next h => exact { hs with contained := hcont, stack := hnext (not_le.mp h) }

theorem decStackPtr_keeps (hc : ctx.Aligned) :
    Keeps (Inside ctx m₀) (StopsWithin ctx m₀) (decStackPtr b ctx) := by
  intro s hs
  obtain ⟨hal, hlo, hhi⟩ := hs.stack
  have hbp := hc.stack_bp
  have hsz := hc.stack_size
  have hprev (h : ctx.stackSegBp ≤ s.curStackPtr - 4) :
      PtrInside ctx.stackSegBp ctx.stackSegSize (s.curStackPtr - 4) := ⟨by omega, h, by omega⟩
  rw [decStackPtr, bind_ok (run_get s), bind_ok (run_modify _ s)]
  split
  · next h =>
    unfold ofsFromPtr at h
    exact { hs with stack := hprev (by omega) }
  split
  · exact ⟨by simp, rfl, hs.contained⟩
  · next h =>
    have hline : ∀ e ∈ decryptLog b .stack (16 * ((s.curStackPtr - 4) / 16)), e.Within ctx :=
      decryptLog_within (by simp only [Ctx.segBp]; omega)
        (by simp only [Ctx.segBp, Ctx.segSize]; omega)
    rw [alignPtr_eq, bind_ok (decryptMemoryCbc_run ..)]
    exact { hs with contained := hs.contained.read hline, stack := hprev (not_lt.mp h) }

theorem insStack_keeps (w : Word) : Keeps (Inside ctx m₀) (StopsWithin ctx m₀) (insStack w) :=
  fun _ hs => { hs with }

theorem extrStack_keeps : Keeps (Inside ctx m₀) (StopsWithin ctx m₀) extrStack :=
  fun _ hs => hs

/-! ## Call line -/

/-- Flushing the loaded call line up to the line of a pointer at or above it. -/
theorem flush_contained (hc : ctx.Aligned) {s : St} (hs : Contained ctx m₀ s.mem s.log) {p : ℤ}
    (hline : LineInside ctx.callSegBp p s.curCallLine)
    (hhi : p < ctx.callSegBp + ctx.callSegSize) :
    ∃ mem' es, encryptRegCbcChain b .call s.rcallLine s.curCallLine (alignPtr p) s =
        .ok () { s with mem := mem', log := s.log ++ es } ∧
      Contained ctx m₀ mem' (s.log ++ es) := by
  obtain ⟨⟨k, hk⟩, hlo, hp⟩ := hline
  have hbp := hc.call_bp
  have hsz := hc.call_size
  obtain ⟨n, hn⟩ := Int.eq_ofNat_of_zero_le (show 0 ≤ p / 16 - k by omega)
  have hend : p / 16 = k + n := by omega
  obtain ⟨mem', hrun, -, hout⟩ := encryptRegCbcChain_run b .call s.rcallLine k n s
  refine ⟨mem', chainLog b .call (16 * k) n, ?_, hs.append (fun a ha => hout a ?_) ?_⟩
  · rw [alignPtr_eq, hend, ← hrun, hk]
  · unfold Ctx.InData at ha; omega
  · intro e he
    exact (chainLog_inChain b .call n k he).within (by omega) (by omega) (by omega)

theorem fetchCallLine_keeps (hc : ctx.Aligned) {target : ℤ} {s : St} (hs : Inside ctx m₀ s)
    (hal : 16 ∣ target) (hle : target ≤ s.curCallPtr) :
    Ends (fun _ s' => Inside ctx m₀ s') (StopsWithin ctx m₀) (fetchCallLine b ctx target s) := by
  have hbp := hc.call_bp
  have hsz := hc.call_size
  have hhi := hs.call.hi
  rw [fetchCallLine, bind_ok (run_get s)]
  split
  · exact hs
  split
  · exact setError_keeps _ s hs
  · next hlo =>
    obtain ⟨mem', es, hrun, hcont⟩ := flush_contained (b := b) hc hs.contained hs.line hhi
    obtain ⟨k, rfl⟩ := hal
    have hline : ∀ e ∈ decryptLog b .call (16 * k), e.Within ctx :=
      decryptLog_within (by simp only [Ctx.segBp]; omega)
        (by simp only [Ctx.segBp, Ctx.segSize]; omega)
    rw [bind_ok hrun, bind_ok (decryptMemoryCbc_run ..)]
    exact { hs with
      contained := hcont.read hline
      line := ⟨⟨k, rfl⟩, not_lt.mp hlo, hle⟩ }

theorem fetchCallElement_keeps (hc : ctx.Aligned) (d : ℕ) :
    Keeps (Inside ctx m₀) (StopsWithin ctx m₀) (fetchCallElement b ctx d) := by
  intro s hs
  rw [fetchCallElement, bind_ok (run_get s)]
  refine Ends.bind (fetchCallLine_keeps hc hs ⟨_, alignPtr_eq _⟩ ?_) fun _ s' hs' => hs'
  rw [alignPtr_eq]; omega

theorem saveCallElement_keeps (hc : ctx.Aligned) (d : ℕ) (w : Word) :
    Keeps (Inside ctx m₀) (StopsWithin ctx m₀) (saveCallElement b ctx d w) := by
  intro s hs
  rw [saveCallElement, bind_ok (run_get s)]
  refine Ends.bind (fetchCallLine_keeps hc hs ⟨_, alignPtr_eq _⟩ ?_) fun _ s' hs' => { hs' with }
  rw [alignPtr_eq]; omega

theorem incCallPtr_keeps {d : ℕ} (hd : 4 ∣ d) :
    Keeps (Inside ctx m₀) (StopsWithin ctx m₀) (incCallPtr ctx d) := by
  intro s hs
  obtain ⟨hal, hlo, hhi⟩ := hs.call
  obtain ⟨hlal, hllo, hlhi⟩ := hs.line
  have hline : LineInside ctx.callSegBp (s.curCallPtr + d) s.curCallLine :=
    ⟨hlal, hllo, by omega⟩
  have hcall (h : s.curCallPtr + d < ctx.callSegBp + ctx.callSegSize) :
      PtrInside ctx.callSegBp ctx.callSegSize (s.curCallPtr + d) := ⟨by omega, by omega, h⟩
  rw [incCallPtr, bind_ok (run_modify _ s), bind_ok (run_get _)]
  split
  · exact ⟨by simp, rfl, hs.contained⟩
  · next h => exact { hs with call := hcall (not_le.mp h), line := hline }

theorem decCallPtr_keeps (hc : ctx.Aligned) {d : ℕ} (hd : 4 ∣ d) :
    Keeps (Inside ctx m₀) (StopsWithin ctx m₀) (decCallPtr b ctx d) := by
  intro s hs
  obtain ⟨hal, hlo, hhi⟩ := hs.call
  have hbp := hc.call_bp
  have hsz := hc.call_size
  rw [decCallPtr, bind_ok (run_get s), bind_ok (run_modify _ s), bind_ok (run_get _)]
  split
  · exact ⟨by simp, rfl, hs.contained⟩
  next hlo' =>
  have hcall : PtrInside ctx.callSegBp ctx.callSegSize (s.curCallPtr - d) :=
    ⟨by omega, not_lt.mp hlo', by omega⟩
  have hlo'' := hcall.lo
  split
  · next hline => exact { hs with call := hcall, line := ⟨hs.line.al, hs.line.lo, hline⟩ }
  · obtain ⟨mem', es, hrun, hcont⟩ := flush_contained (b := b) hc
      (s := { s with curCallPtr := s.curCallPtr - d }) hs.contained hs.line hhi
    have hread : ∀ e ∈ decryptLog b .call (16 * ((s.curCallPtr - d) / 16)), e.Within ctx :=
      decryptLog_within (by simp only [Ctx.segBp]; omega)
        (by simp only [Ctx.segBp, Ctx.segSize]; omega)
    have hline : LineInside ctx.callSegBp (s.curCallPtr - d)
        (16 * ((s.curCallPtr - d) / 16)) := ⟨⟨_, rfl⟩, by omega, by omega⟩
    rw [bind_ok hrun]
    simp only [alignPtr_eq]
    rw [bind_ok (decryptMemoryCbc_run ..)]
    exact { hs with contained := hcont.read hread, call := hcall, line := hline }

/-! ## Print buffer -/

theorem printWord_keeps (hc : ctx.Aligned) (w : Word) :
    Keeps (Inside ctx m₀) (StopsWithin ctx m₀) (printWord ctx w) := by
  intro s hs
  obtain ⟨hal, hlo, hhi⟩ := hs.print
  have hbp := hc.print_bp
  have hsz := hc.print_size
  have hpos := hc.print_pos
  have hcont : Contained ctx m₀ (Function.update s.mem s.printPtr w)
      (s.log ++ [.print s.printPtr w]) := by
    refine hs.contained.append (fun a ha => Function.update_of_ne ?_ ..) ?_
    · rintro rfl
      exact ha (.inr (.inr ⟨hlo, hhi⟩))
    · simp only [List.mem_singleton, forall_eq]
      exact ⟨hlo, by omega⟩
  have hnext (h : s.printPtr + 4 < ctx.printSegBp + ctx.printSegSize) :
      PtrInside ctx.printSegBp ctx.printSegSize (s.printPtr + 4) := ⟨by omega, by omega, h⟩
  have hfirst : PtrInside ctx.printSegBp ctx.printSegSize ctx.printSegBp :=
    ⟨by omega, le_refl _, by omega⟩
  rw [printWord, bind_ok (run_get s), bind_ok (run_modify _ s)]
  split
  · next h => exact { hs with contained := hcont, print := hnext h }
  · exact { hs with contained := hcont, print := hfirst }

/-! ## Instructions -/

/-- A checked jump target lies on a dword. -/
theorem calcJmpTarget_rel (hc : ctx.Aligned) (w : Word) :
    (MonadRel.keeping (Inside ctx m₀) (StopsWithin ctx m₀)).rel (fun p p' => p = p' ∧ 4 ∣ p)
      (calcJmpTarget ctx w) (calcJmpTarget ctx w) := by
  intro s hs
  have hbp := hc.code_bp
  have hal : 4 ∣ ctx.codeSegBp + 4 * (w.toNat : ℤ) := by omega
  unfold calcJmpTarget
  by_cases h : ctx.codeSegSize ≤ 4 * w.toNat
  · simp only [if_pos h]
    exact ⟨rfl, rfl, setError_keeps (α := ℤ) _ s hs⟩
  · simp only [if_neg h]
    exact ⟨⟨rfl, hal⟩, rfl, hs⟩

theorem macros_keep (hc : ctx.Aligned) :
    MacrosRel (MonadRel.keeping (Inside ctx m₀) (StopsWithin ctx m₀))
      (fun p p' => p = p' ∧ 4 ∣ p) Eq (macros b ctx) (macros b ctx) where
  argc := rfl
  argv := rfl
  error _ e := fun s hs => ⟨rfl, rfl, setError_keeps (α := Unit) e s hs⟩
  incAndCheckCycleCnt := Keeps.rel fun _ hs => { hs with }
  extrNextInstr := extrNextInstr_keeps.rel
  incInstrPtr := incInstrPtr_keeps.rel
  calcJmpTarget := calcJmpTarget_rel hc
  jumpTo p p' h := by
    obtain ⟨rfl, hal⟩ := h
    exact (jumpTo_keeps hal).rel
  retAddr := Keeps.rel fun _ hs => hs
  extrStack := extrStack_keeps.rel
  insStack w := (insStack_keeps w).rel
  incStackPtr := (incStackPtr_keeps hc).rel
  decStackPtr := (decStackPtr_keeps hc).rel
  fetchCallElement d _ := (fetchCallElement_keeps hc d).rel
  saveCallElement d w _ := (saveCallElement_keeps hc d w).rel
  incCallPtr _ hd := (incCallPtr_keeps hd).rel
  decCallPtr _ hd := (decCallPtr_keeps hc hd).rel
  print w := (printWord_keeps hc w).rel

/-- **Every instruction keeps the pointers inside their segments**, whatever the
word that is dispatched. -/
theorem dispatch_keeps (hc : ctx.Aligned) :
    Keeps (Inside ctx m₀) (StopsWithin ctx m₀) (dispatch (macros b ctx)) :=
  Keeps.of_rel (dispatch_rel (macros_keep hc) (Keeps.rel fun _ hs => { hs with }))

/-! ## Cycles -/

/-- Loading the pointers of a cycle restores its invariant. -/
theorem bispeCycleEntry_keeps (hc : ctx.Aligned) {s : St} (hs : SavedInside ctx m₀ s) :
    ∃ s', bispeCycleEntry b ctx s = .ok () s' ∧ Inside ctx m₀ s' := by
  obtain ⟨hal, hlo, hhi⟩ := hs.call
  obtain ⟨hsal, hslo, hshi⟩ := hs.stack
  have hbp := hc.call_bp
  have hsz := hc.call_size
  have hsbp := hc.stack_bp
  have hssz := hc.stack_size
  have hstack : ∀ e ∈ decryptLog b .stack (16 * (s.stackPtr / 16)), e.Within ctx :=
    decryptLog_within (by simp only [Ctx.segBp]; omega)
      (by simp only [Ctx.segBp, Ctx.segSize]; omega)
  have hcall : ∀ e ∈ decryptLog b .call (16 * (s.callPtr / 16)), e.Within ctx :=
    decryptLog_within (by simp only [Ctx.segBp]; omega)
      (by simp only [Ctx.segBp, Ctx.segSize]; omega)
  have hline : LineInside ctx.callSegBp s.callPtr (16 * (s.callPtr / 16)) :=
    ⟨⟨_, rfl⟩, by omega, by omega⟩
  exact ⟨_, bispeCycleEntry_run b ctx s hline.lo, {
    contained := ((hs.contained.read (decryptLog_within_code _)).read hstack).read hcall
    print := hs.print
    instr := hs.instr
    stack := hs.stack
    call := hs.call
    line := hline }⟩

theorem saveCallLine_contained (hc : ctx.Aligned) {s : St} (hs : Contained ctx m₀ s.mem s.log)
    (hline : LineInside ctx.callSegBp s.curCallPtr s.curCallLine)
    (hhi : s.curCallPtr < ctx.callSegBp + ctx.callSegSize) :
    ∃ mem' es, saveCallLine b s = .ok () { s with mem := mem', log := s.log ++ es } ∧
      Contained ctx m₀ mem' (s.log ++ es) := by
  obtain ⟨mem', es, hrun, hcont⟩ := flush_contained (b := b) hc hs hline hhi
  exact ⟨mem', es, (bind_ok (run_get s)).trans hrun, hcont⟩

/-- The outro writes the two loaded lines back and saves the pointers. -/
theorem bispeCycleOutro_keeps (hc : ctx.Aligned) {s : St} (hs : Inside ctx m₀ s) :
    ∃ s', bispeCycleOutro b s = .ok () s' ∧ SavedInside ctx m₀ s' := by
  obtain ⟨mem', es, hrun, hcont⟩ := saveCallLine_contained (b := b) hc
    (s := { s with
      mem := storeLine s.mem (16 * (s.curStackPtr / 16))
        (b.mode.link s.rstackLine (lines s.mem (s.curStackPtr / 16 - 1)))
      log := s.log ++ encryptLog b .stack (16 * (s.curStackPtr / 16)) })
    (saveStack_contained hc hs.contained hs.stack s.rstackLine) hs.line hs.call.hi
  refine ⟨_, (bind_ok (saveStackLine_run b s)).trans (bind_ok hrun), ?_⟩
  exact { contained := hcont, print := hs.print, instr := hs.instr, stack := hs.stack,
          call := hs.call }

end Macros

/-! ## Invocations -/

section Runs
variable {b : Build} {ctx : Ctx} {s₀ : St}

/-- The invariant of a phase.  Between two cycles it is only needed while the run
can go on. -/
def Phase.Safe (ctx : Ctx) (m₀ : ℤ → Word) : Phase → St → Prop
  | .idle, s => Contained ctx m₀ s.mem s.log ∧ (s.haltFlag = false → SavedInside ctx m₀ s)
  | .dispatch, s => Inside ctx m₀ s
  | .outro, s => Inside ctx m₀ s

theorem Phase.Safe.contained {ph : Phase} {m₀ : ℤ → Word} {s : St} (h : ph.Safe ctx m₀ s) :
    Contained ctx m₀ s.mem s.log := by
  cases ph with
  | idle => exact h.1
  | dispatch => exact Inside.contained h
  | outro => exact Inside.contained h

theorem start_safe (hc : ctx.Aligned) : Phase.idle.Safe ctx s₀.mem (startState ctx s₀) := by
  have hcode := hc.code_bp
  have hstack := hc.stack_bp
  have hcall := hc.call_bp
  have hprint := hc.print_bp
  have hpos := hc.stack_pos
  have hpos' := hc.call_pos
  have hpos'' := hc.print_pos
  have hcont : Contained ctx s₀.mem s₀.mem [] := ⟨by simp, fun _ _ => rfl⟩
  refine ⟨hcont, fun _ => ?_⟩
  exact {
    contained := hcont
    print := ⟨(by omega : (4 : ℤ) ∣ ctx.printSegBp), le_refl _, by simp [startState, hpos'']⟩
    instr := (by omega : (4 : ℤ) ∣ ctx.codeSegBp)
    stack := ⟨(by omega : (4 : ℤ) ∣ ctx.stackSegBp), le_refl _, by simp [startState, hpos]⟩
    call := ⟨(by omega : (4 : ℤ) ∣ ctx.callSegBp), le_refl _, by simp [startState, hpos']⟩ }

/-- One phase of a run keeps its invariant and does not hang. -/
theorem phaseStep_safe (hc : ctx.Aligned) {ph : Phase} {m₀ : ℤ → Word} {s : St}
    (hs : ph.Safe ctx m₀ s) (hlive : ph.Live s) :
    Ends (fun ph' s' => ph'.Safe ctx m₀ s') (StopsWithin ctx m₀) (phaseStep b ctx ph s) := by
  cases ph with
  | idle =>
      obtain ⟨s', hrun, hs'⟩ := bispeCycleEntry_keeps (b := b) hc (hs.2 (hlive rfl))
      rw [phaseStep, bind_ok hrun]
      exact hs'
  | dispatch =>
      refine Ends.bind (dispatch_keeps hc s hs) fun c s' hs' => ?_
      cases c with
      | next => exact hs'
      | cycleEnd => exact hs'
      | finish => exact hs'
  | outro =>
      obtain ⟨s', hrun, hs'⟩ := bispeCycleOutro_keeps (b := b) hc hs
      rw [phaseStep, bind_ok hrun]
      exact ⟨hs'.contained, fun _ => hs'⟩

theorem Reach.safe (hc : ctx.Aligned) {ph : Phase} {s : St} (h : Reach b ctx s₀ ph s) :
    ph.Safe ctx s₀.mem s := by
  induction h with
  | start => exact start_safe hc
  | step _ hlive hrun ih =>
      have := phaseStep_safe (b := b) hc ih hlive
      rwa [hrun] at this
  | stop _ hlive hrun ih =>
      have := phaseStep_safe (b := b) hc ih hlive
      rw [hrun] at this
      obtain ⟨-, hhalt, hcont⟩ := this
      exact ⟨hcont, fun h => by simp [hhalt] at h⟩
  | clear regs _ ih => exact ⟨ih.1, fun h => { ih.2 h with }⟩

end Runs

/-- Memory in which the code decrypts to `PROLOG 4`, `LOAD 0`, `FINISH`. -/
def callLineState : St :=
  { nopState with
    mem := fun a => if a = 16 then 17 else if a = 20 then 1 else if a = 24 then 1 else
      if a = 28 then 5 else if a = 32 then 21 else if a = 36 ∨ a = 40 then 4 else 0 }

/-- The small invocation with two lines of code and two of the call stack. -/
def callLineCtx : Ctx :=
  createRuntimeCtx (some (keyCipher 5)) { smallInvoke 48 with callSize := 2 } smallBuffers

/-- The state after the two instructions. -/
def callLineRun : Phase × St :=
  invocation (some (keyCipher 5)) callLineCtx ⟨0, 0, 0⟩ callLineState 3

end Bispe
