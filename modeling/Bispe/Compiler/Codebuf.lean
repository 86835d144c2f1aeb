import Bispe.Compiler.Encoding

/-!
# The code buffer

`build_codebuf` of `generator.c`: the words of the code list, a final `FINISH` and
random padding up to a multiple of four words, behind an init vector unless the
program is to run unencrypted.  Each write to the buffer checks that it is inside.

## Main definitions

* `buildCodebuf` — the buffer.
* `Filled` — the start of a buffer has been written.
* `buildCodebuf_cases` — its contents.
-/

namespace Bispe

/-- Why there is no buffer. -/
inductive CodebufStop
  /-- `NULL` is returned: `malloc` or `/dev/urandom` has failed. -/
  | null
  /-- The size does not fit into an `int`. -/
  | intOverflow
  /-- A write behind the end of the buffer. -/
  | overrun
  deriving DecidableEq, Repr

/-- The words a source of words delivers, by the position they go to. -/
abbrev WordSource := Option (ℕ → Word)

def writeWord (buf : List Word) (pos : ℕ) (w : Word) : Except CodebufStop (List Word) :=
  if pos < buf.length then .ok (buf.set pos w) else .error .overrun

def writeWords : List Word → List Word → ℕ → Except CodebufStop (List Word)
  | [], buf, _ => .ok buf
  | w :: ws, buf, pos => do writeWords ws (← writeWord buf pos w) (pos + 1)

/-- `write_random_bytes`, for `n` words. -/
def writeRandomBytes (random : WordSource) (buf : List Word) (pos n : ℕ) :
    Except CodebufStop (List Word) :=
  match random with
  | none => .error .null
  | some random => writeWords ((List.range' pos n).map random) buf pos

/-- Count the size of the code. -/
def countSize (head : List CodeElem) : ℕ := head.foldl (fun size cur =>
  if (instrInfo cur.instr).hasArg then size + 1 + 1 else size + 1) 0

/-- Copy the opcodes and arguments; the position behind them. -/
def copyOpcodes : List CodeElem → List Word → ℕ → Except CodebufStop (List Word × ℕ)
  | [], buf, pos => .ok (buf, pos)
  | cur :: next, buf, pos => do
      let buf ← writeWord buf pos (instrInfo cur.instr).opcode
      if (instrInfo cur.instr).hasArg then do
        let buf ← writeWord buf (pos + 1) cur.arg
        copyOpcodes next buf (pos + 2)
      else copyOpcodes next buf (pos + 1)

/-- The number of words in the buffer. -/
def codebufSize (head : List CodeElem) (unencrypted : Bool) : ℕ :=
  let size := countSize head
  let bufSize := size + (4 - size % 4)
  if unencrypted then bufSize else bufSize + 4

/-- The position of the code. -/
def codeStart (unencrypted : Bool) : ℕ := if unencrypted then 0 else 4

/-- Write the init vector to the first 16 bytes. -/
def writeIv (iv : WordSource) (buf : List Word) (unencrypted : Bool) :
    Except CodebufStop (List Word) :=
  if unencrypted then .ok buf else writeRandomBytes iv buf 0 4

/-- `build_codebuf`.  `malloced` is what `malloc` returns; the other two are what
`/dev/urandom` delivers for the init vector and for the padding. -/
def buildCodebuf (malloced iv padding : WordSource) (head : List CodeElem) (unencrypted : Bool) :
    Except CodebufStop (List Word) := do
  let bufSize := codebufSize head unencrypted
  if 2 ^ 31 ≤ bufSize then .error .intOverflow
  else match malloced with
    | none => .error .null
    | some malloced => do
        let buf := (List.range bufSize).map malloced
        let buf ← writeIv iv buf unencrypted
        let (buf, pos) ← copyOpcodes head buf (codeStart unencrypted)
        let buf ← writeWord buf pos (instrInfo .finish).opcode
        writeRandomBytes padding buf (pos + 1) (bufSize - (pos + 1))

/-! ## Sizes -/

theorem countSize_eq (head : List CodeElem) : countSize head = words head := by
  have hfold (n : ℕ) : head.foldl (fun size cur =>
      if (instrInfo cur.instr).hasArg then size + 1 + 1 else size + 1) n = n + words head := by
    induction head generalizing n with
    | nil => rfl
    | cons cur next ih =>
        rw [List.foldl_cons, ih, words_cons, CodeElem.width]
        split <;> omega
  exact (hfold 0).trans (Nat.zero_add _)

theorem codebufSize_eq (head : List CodeElem) (unencrypted : Bool) :
    codebufSize head unencrypted =
      codeStart unencrypted + words head + (4 - words head % 4) := by
  rw [codebufSize, codeStart, countSize_eq]
  split <;> omega

/-- There is a place for the final instruction. -/
theorem lt_codebufSize (head : List CodeElem) (unencrypted : Bool) :
    codeStart unencrypted + words head < codebufSize head unencrypted := by
  rw [codebufSize_eq]
  omega

/-! ## Contents -/

/-- A buffer of `n` words that starts with `l`. -/
structure Filled (n : ℕ) (l buf : List Word) : Prop where
  length : buf.length = n
  take : buf.take l.length = l

namespace Filled

variable {n : ℕ} {l buf : List Word}

theorem nil (buf : List Word) : Filled buf.length [] buf := ⟨rfl, rfl⟩

/-- The next word. -/
theorem writeWord (h : Filled n l buf) (w : Word) (hlt : l.length < n) :
    ∃ buf', Bispe.writeWord buf l.length w = .ok buf' ∧ Filled n (l ++ [w]) buf' := by
  have hlength : l.length < buf.length := by rw [h.length]; exact hlt
  refine ⟨_, if_pos hlength, by rw [List.length_set, h.length], ?_⟩
  have htake : (buf.set l.length w).take l.length = l := by
    rw [List.take_set_of_le le_rfl, h.take]
  rw [List.length_append, List.length_singleton, List.take_add_one, htake]
  simp [hlength]

theorem writeWords (h : Filled n l buf) (ws : List Word) (hle : l.length + ws.length ≤ n) :
    ∃ buf', Bispe.writeWords ws buf l.length = .ok buf' ∧ Filled n (l ++ ws) buf' := by
  induction ws generalizing l buf with
  | nil => exact ⟨buf, rfl, by rwa [List.append_nil]⟩
  | cons w ws ih =>
      rw [List.length_cons] at hle
      obtain ⟨buf₁, hwrite, h₁⟩ := h.writeWord w (by omega)
      obtain ⟨buf₂, hwrites, h₂⟩ := ih h₁ (by simp; omega)
      rw [List.length_append, List.length_singleton] at hwrites
      refine ⟨buf₂, ?_, by simpa using h₂⟩
      rw [Bispe.writeWords, hwrite]
      exact hwrites

theorem copyOpcodes (h : Filled n l buf) (head : List CodeElem)
    (hle : l.length + words head ≤ n) :
    ∃ buf', Bispe.copyOpcodes head buf l.length = .ok (buf', l.length + words head) ∧
      Filled n (l ++ encode head) buf' := by
  induction head generalizing l buf with
  | nil => exact ⟨buf, rfl, by rwa [encode_nil, List.append_nil]⟩
  | cons cur next ih =>
      rw [words_cons, CodeElem.width] at hle
      obtain ⟨buf₁, hop, h₁⟩ := h.writeWord (instrInfo cur.instr).opcode (by split at hle <;> omega)
      rw [Bispe.copyOpcodes, hop, words_cons, encode_cons, CodeElem.encode, CodeElem.width]
      by_cases harg : (instrInfo cur.instr).hasArg = true
      · rw [if_pos harg] at hle
        obtain ⟨buf₂, hoperand, h₂⟩ := h₁.writeWord cur.arg (by simp; omega)
        obtain ⟨buf₃, hnext, h₃⟩ := ih h₂ (by simp; omega)
        rw [List.length_append, List.length_singleton] at hoperand
        simp only [List.length_append, List.length_singleton] at hnext
        refine ⟨buf₃, ?_, by simpa [harg] using h₃⟩
        simp only [harg, if_true]
        change (do
          let buf ← Bispe.writeWord buf₁ (l.length + 1) cur.arg
          Bispe.copyOpcodes next buf (l.length + 2)) = _
        rw [hoperand]
        exact hnext.trans (by rw [Nat.add_assoc, Nat.add_assoc, ← Nat.add_assoc 1 1])
      · rw [if_neg harg] at hle
        obtain ⟨buf₂, hnext, h₂⟩ := ih h₁ (by simp; omega)
        rw [List.length_append, List.length_singleton] at hnext
        refine ⟨buf₂, ?_, by simpa [harg] using h₂⟩
        simp only [harg]
        exact hnext.trans (by rw [Nat.add_assoc]; rfl)

theorem eq (h : Filled n l buf) (hlength : l.length = n) : buf = l := by
  rw [← h.take, hlength, ← h.length, List.take_length]

end Filled

theorem except_bind_ok {ε α β : Type} {x : Except ε α} {f : α → Except ε β} {a : α}
    (h : x = .ok a) : (x >>= f) = f a := by
  rw [h]
  rfl

theorem except_bind_error {ε α β : Type} {x : Except ε α} {f : α → Except ε β} {e : ε}
    (h : x = .error e) : (x >>= f) = .error e := by
  rw [h]
  rfl

/-- The padding behind `pos` words. -/
def padWords (padding : ℕ → Word) (pos n : ℕ) : List Word := (List.range' pos n).map padding

/-- The words of a buffer with the init vector `iv`. -/
def bufferWords (iv : List Word) (padding : ℕ → Word) (head : List CodeElem) : List Word :=
  iv ++ encode head ++ [(instrInfo .finish).opcode] ++
    padWords padding (iv.length + words head + 1) (3 - words head % 4)

theorem length_bufferWords (iv : List Word) (padding : ℕ → Word) (head : List CodeElem) :
    (bufferWords iv padding head).length = iv.length + words head + (4 - words head % 4) := by
  simp only [bufferWords, padWords, List.length_append, length_encode, List.length_singleton,
    List.length_map, List.length_range']
  omega

/-- The stages after the init vector have been written. -/
theorem buildCodebuf_stages {malloced : ℕ → Word} {iv : WordSource} (padding : WordSource)
    {head : List CodeElem} {unencrypted : Bool} {buf : List Word} {ivw : List Word}
    (hsize : codebufSize head unencrypted < 2 ^ 31)
    (hiv : writeIv iv ((List.range (codebufSize head unencrypted)).map malloced) unencrypted =
      .ok buf)
    (hbuf : Filled (codebufSize head unencrypted) ivw buf)
    (hlength : ivw.length = codeStart unencrypted) :
    buildCodebuf (some malloced) iv padding head unencrypted = match padding with
      | none => .error .null
      | some padding => .ok (bufferWords ivw padding head) := by
  let n := codebufSize head unencrypted
  have hn : n = ivw.length + words head + (4 - words head % 4) := by
    rw [hlength]
    exact codebufSize_eq head unencrypted
  obtain ⟨buf₂, hcopy, h₂⟩ := hbuf.copyOpcodes head (by omega)
  have hpos : (ivw ++ encode head).length = ivw.length + words head := by simp
  obtain ⟨buf₃, hfinish, h₃⟩ := h₂.writeWord (instrInfo .finish).opcode (by omega)
  rw [hpos] at hfinish
  simp only [buildCodebuf]
  rw [if_neg (by omega), ← hlength]
  refine (except_bind_ok hiv).trans ((except_bind_ok hcopy).trans
    ((except_bind_ok hfinish).trans ?_))
  cases padding with
  | none => rfl
  | some padding =>
      have hpad : n - (ivw.length + words head + 1) = 3 - words head % 4 := by omega
      obtain ⟨buf₄, hpadding, h₄⟩ := h₃.writeWords
        (padWords padding (ivw.length + words head + 1) (3 - words head % 4))
        (by simp [padWords]; omega)
      have hpos' : (ivw ++ encode head ++ [(instrInfo .finish).opcode]).length =
          ivw.length + words head + 1 := by simp [Nat.add_assoc]
      rw [hpos'] at hpadding
      obtain rfl := h₄.eq ((length_bufferWords ivw padding head).trans hn.symm)
      refine Eq.trans ?_ hpadding
      change writeRandomBytes _ _ _ (n - (ivw.length + words head + 1)) = _
      rw [hpad]
      rfl

theorem writeIv_cases (iv : WordSource) {n : ℕ} {buf : List Word} {unencrypted : Bool}
    (hbuf : Filled n [] buf) (hn : codeStart unencrypted ≤ n) :
    writeIv iv buf unencrypted = .error .null ∨
    ∃ ivw buf', writeIv iv buf unencrypted = .ok buf' ∧ Filled n ivw buf' ∧
      ivw.length = codeStart unencrypted := by
  cases unencrypted with
  | true => exact .inr ⟨[], buf, rfl, hbuf, rfl⟩
  | false =>
      cases iv with
      | none => exact .inl rfl
      | some iv =>
          obtain ⟨buf', hwrite, hfilled⟩ := hbuf.writeWords ((List.range' 0 4).map iv) hn
          exact .inr ⟨_, buf', hwrite, hfilled, rfl⟩

/-- **The buffer.**  There is none, or it is an init vector, the words of the code, `FINISH`
and the padding.  No write is outside, whatever the sources of words do. -/
theorem buildCodebuf_cases (malloced iv padding : WordSource) (head : List CodeElem)
    (unencrypted : Bool) :
    (∃ e, e ≠ .overrun ∧ buildCodebuf malloced iv padding head unencrypted = .error e) ∨
    ∃ ivw padding', ivw.length = codeStart unencrypted ∧
      buildCodebuf malloced iv padding head unencrypted = .ok (bufferWords ivw padding' head) := by
  by_cases hsize : codebufSize head unencrypted < 2 ^ 31
  · cases malloced with
    | none =>
        refine .inl ⟨.null, nofun, ?_⟩
        simp only [buildCodebuf]
        rw [if_neg (by omega)]
    | some malloced =>
        let buf := (List.range (codebufSize head unencrypted)).map malloced
        have hbuf : Filled (codebufSize head unencrypted) [] buf := ⟨by simp [buf], rfl⟩
        have hroom : codeStart unencrypted ≤ codebufSize head unencrypted := by
          have := lt_codebufSize head unencrypted
          omega
        rcases writeIv_cases iv hbuf hroom with hiv | ⟨ivw, buf', hiv, hfilled, hlength⟩
        · refine .inl ⟨.null, nofun, ?_⟩
          simp only [buildCodebuf]
          rw [if_neg (by omega)]
          exact except_bind_error hiv
        · have hstages := buildCodebuf_stages padding hsize hiv hfilled hlength
          cases padding with
          | none => exact .inl ⟨.null, nofun, hstages⟩
          | some padding => exact .inr ⟨ivw, padding, hlength, hstages⟩
  · refine .inl ⟨.intOverflow, nofun, ?_⟩
    simp only [buildCodebuf]
    rw [if_pos (by omega)]

theorem buildCodebuf_eq_ok {malloced iv padding : WordSource} {head : List CodeElem}
    {unencrypted : Bool} {buf : List Word}
    (h : buildCodebuf malloced iv padding head unencrypted = .ok buf) :
    ∃ ivw padding', ivw.length = codeStart unencrypted ∧ buf = bufferWords ivw padding' head := by
  rcases buildCodebuf_cases malloced iv padding head unencrypted with
    ⟨e, -, herror⟩ | ⟨ivw, padding', hlength, hok⟩
  · rw [herror] at h
    cases h
  · rw [hok] at h
    cases h
    exact ⟨ivw, padding', hlength, rfl⟩

/-- The instruction at the start of a list, where `FINISH` follows. -/
def nextInstr (l : List CodeElem) : InstrType := (l.head?.map CodeElem.instr).getD .finish

/-- The word of the buffer at the start of an instruction, or behind the last one. -/
theorem bufferWords_start (ivw : List Word) (padding : ℕ → Word) (l r : List CodeElem) :
    (bufferWords ivw padding (l ++ r))[ivw.length + words l]? =
      some (instrInfo (nextInstr r)).opcode := by
  have hsplit : bufferWords ivw padding (l ++ r) =
      (ivw ++ encode l) ++ (encode r ++ [(instrInfo .finish).opcode] ++
        padWords padding (ivw.length + words (l ++ r) + 1) (3 - words (l ++ r) % 4)) := by
    simp [bufferWords]
  rw [hsplit, List.getElem?_append_right (by simp)]
  cases r with
  | nil => simp [nextInstr]
  | cons elem r => simp [nextInstr, CodeElem.encode]

end Bispe
