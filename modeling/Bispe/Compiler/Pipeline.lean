import Bispe.Backend.CryptoMemory
import Bispe.Backend.Endings
import Bispe.Compiler.Codebuf
import Bispe.Compiler.Preservation
import Bispe.Compiler.Reading

/-!
# From the code list to the running interpreter

The compiler lays the words of a code list out behind an init vector, the backend's device
`encrypt_code` encrypts them in place, and `create_runtime_ctx` makes a code segment of the
lines behind the init vector.  The program in that segment is the code list again, so an
invocation does what the source program means.

## Main definitions

* `encryptCode` — `encrypt_code` of `bispe_main.c`.
* `Lies` — a buffer lies in memory.
* `Deployment` — the buffers a code list passes through, and the invocation with the last.
* `pipeline_round_trips`, `code_round_trips` — the interpreter fetches the words of the code
  list.
* `compiled_invocation` — an invocation prints what the source program prints.
* `large_invocation` — it does so without an overflow on large stacks.
-/

namespace Bispe

open Effect Chaining

/-! ## The encryption device -/

/-- Why `encrypt_code` does not encrypt. -/
inductive EncryptStop
  /-- The size is no multiple of 128 bit. -/
  | format
  /-- `vmalloc` has failed. -/
  | noBuffer
  /-- `copy_from_user` has failed. -/
  | notCopied
  /-- The index of the loop does not fit into an `int`. -/
  | intOverflow
  deriving DecidableEq, Repr

/-- `copy_from_user`, of a buffer of words to the address `p`. -/
def copyFromUser (mem : ℤ → Word) (p : ℤ) (buf : List Word) : ℤ → Word := fun a =>
  if p ≤ a ∧ a < p + 4 * buf.length then buf.getD ((a - p) / 4).toNat 0 else mem a

/-- `copy_to_user`, of the `n` words at the address `p`. -/
def copyToUser (mem : ℤ → Word) (p : ℤ) (n : ℕ) : List Word :=
  (List.range n).map fun i => mem (p + 4 * (i : ℕ))

/-- The block at `i` is encrypted to `tmp` by `bispe_encblk_mem_cbc`, behind the block before
it, and copied back. -/
def encryptCodeBlock (c : Cipher) (codeBuf : ℤ) (mem : ℤ → Word) (i : ℕ) : ℤ → Word :=
  let tmp := c.encblk (vpxor (lineAt mem (codeBuf + i)) (lineAt mem (codeBuf + i - 16)))
  storeLine mem (codeBuf + i) tmp

/-- The block in `tmp` is what the routine writes to memory, called with the addresses of the
two blocks and with the loaded key. -/
theorem encryptCodeBlock_eq (m : Crypto.Cpu) {codeBuf : ℤ} {i : ℕ}
    (hsrc : m.rsi = BitVec.ofInt 64 (codeBuf + i))
    (hprev : m.rdx = BitVec.ofInt 64 (codeBuf + i - 16)) :
    encryptCodeBlock m.regs.cipher codeBuf (Crypto.wordsOf m.mem) i =
      storeLine (Crypto.wordsOf m.mem) (codeBuf + i)
        (Crypto.loadBlock (Crypto.runMem Crypto.bispeEncblkMemCbc m).mem m.rdi) := by
  rw [Crypto.bispeEncblkMemCbc_mem, Crypto.loadBlock_storeBlock, hsrc, hprev,
    ← Crypto.lineAt_wordsOf, ← Crypto.lineAt_wordsOf]
  rfl

/-- The loop over `i = 16, 32, …, size - 16`.  The first 128 bit are the init vector. -/
def encryptCodeBlocks (c : Cipher) (codeBuf : ℤ) (mem : ℤ → Word) (size : ℕ) : ℤ → Word :=
  (List.range' 16 (size / 16 - 1) 16).foldl (encryptCodeBlock c codeBuf) mem

/-- `encrypt_code` under the cipher of the loaded key.  `vmalloced` is what `vmalloc`
returns in a memory `mem`, and `copied` whether `copy_from_user` succeeds. -/
def encryptCode (c : Cipher) (vmalloced : Option ℤ) (copied : Bool) (mem : ℤ → Word)
    (buf : List Word) : Except EncryptStop (List Word) :=
  let size := 4 * buf.length
  if size % 16 ≠ 0 then .error .format
  else match vmalloced with
    | none => .error .noBuffer
    | some codeBuf =>
        if copied = false then .error .notCopied
        else if 2 ^ 31 ≤ size then .error .intOverflow
        else
          let mem := encryptCodeBlocks c codeBuf (copyFromUser mem codeBuf buf) size
          .ok (copyToUser mem codeBuf buf.length)

/-! ## Buffers in memory -/

/-- The words of a buffer are in memory, at the address `p`. -/
def Lies (mem : ℤ → Word) (p : ℤ) (buf : List Word) : Prop :=
  ∀ i w, buf[i]? = some w → mem (p + 4 * (i : ℕ)) = w

/-- Memory by lines, counted from the address `p`. -/
def linesFrom (mem : ℤ → Word) (p : ℤ) (k : ℤ) : Line := lineAt mem (p + 16 * k)

section Buffers
variable {mem mem' : ℤ → Word} {p q : ℤ} {buf : List Word}

theorem copyFromUser_lies (mem : ℤ → Word) (p : ℤ) (buf : List Word) :
    Lies (copyFromUser mem p buf) p buf := by
  intro i w hi
  have hlt := (List.getElem?_eq_some_iff.mp hi).1
  have hindex : ((p + 4 * (i : ℤ) - p) / 4).toNat = i := by omega
  rw [copyFromUser, if_pos (by omega), hindex]
  simp [hi]

@[simp] theorem length_copyToUser (mem : ℤ → Word) (p : ℤ) (n : ℕ) :
    (copyToUser mem p n).length = n := by
  simp [copyToUser]

/-- What is copied out has the words of the memory it comes from. -/
theorem Lies.word {n i : ℕ} (h : Lies mem' q (copyToUser mem p n)) (hi : i < n) :
    mem' (q + 4 * (i : ℕ)) = mem (p + 4 * (i : ℕ)) := by
  refine h i _ ?_
  simp [copyToUser, hi]

theorem Lies.line {n : ℕ} {k : ℤ} (h : Lies mem' q (copyToUser mem p n)) (hk : 0 ≤ k)
    (hn : 4 * k + 4 ≤ n) : linesFrom mem' q k = linesFrom mem p k := by
  funext i
  have hword := h.word (i := (4 * k).toNat + i) (by omega)
  have haddr (a : ℤ) : a + 16 * k + 4 * (i : ℕ) = a + 4 * (((4 * k).toNat + i : ℕ) : ℤ) := by
    omega
  rw [linesFrom, linesFrom, lineAt, lineAt, haddr, haddr, hword]

theorem linesFrom_storeLine (mem : ℤ → Word) (p k : ℤ) (x : Line) :
    linesFrom (storeLine mem (p + 16 * k) x) p = Function.update (linesFrom mem p) k x := by
  funext j i
  by_cases h : j = k
  · subst h
    have hi : lane (4 * ((i : ℕ) : ℤ)) = i := by rw [lane_eq_iff]; omega
    rw [Function.update_self, linesFrom, lineAt, storeLine, if_pos (by omega),
      add_sub_cancel_left, hi]
  · rw [Function.update_of_ne h, linesFrom, lineAt, storeLine, if_neg (by omega)]
    rfl

/-- Lines counted from an aligned address are lines of the whole memory. -/
theorem linesFrom_line (mem : ℤ → Word) (k j : ℤ) :
    linesFrom mem (16 * k) j = lines mem (k + j) := by
  rw [linesFrom, lines, ← mul_add]

/-- The loop is the encryption of a chain. -/
theorem linesFrom_encrypt (c : Cipher) (codeBuf : ℤ) (n k : ℕ) (mem : ℤ → Word) :
    linesFrom ((List.range' (16 * k) n 16).foldl (encryptCodeBlock c codeBuf) mem) codeBuf =
      (Build.mode (some c)).encrypt n k (linesFrom mem codeBuf) := by
  induction n generalizing k mem with
  | zero => rfl
  | succ n ih =>
      have hblock : linesFrom (encryptCodeBlock c codeBuf mem (16 * k)) codeBuf =
          (Build.mode (some c)).write (linesFrom mem codeBuf) k (linesFrom mem codeBuf k) := by
        have hprev : codeBuf + 16 * (k : ℤ) - 16 = codeBuf + 16 * ((k : ℤ) - 1) := by ring
        rw [encryptCodeBlock, Nat.cast_mul, Nat.cast_ofNat, linesFrom_storeLine, hprev]
        rfl
      rw [List.range'_succ, List.foldl_cons, ← Nat.mul_succ, ih, hblock, Nat.cast_succ]
      rfl

end Buffers

/-! ## The round trip -/

section RoundTrip
variable {c : Cipher} {vmalloced : Option ℤ} {copied : Bool} {mem mem' : ℤ → Word}
  {buf enc : List Word} {malloced iv padding : WordSource} {head : List CodeElem}

theorem encryptCode_eq_ok (h : encryptCode c vmalloced copied mem buf = .ok enc) :
    4 ∣ buf.length ∧ ∃ codeBuf, enc = copyToUser
      (encryptCodeBlocks c codeBuf (copyFromUser mem codeBuf buf) (4 * buf.length)) codeBuf
      buf.length := by
  simp only [encryptCode] at h
  by_cases hformat : 4 * buf.length % 16 ≠ 0
  · rw [if_pos hformat] at h
    cases h
  · rw [if_neg hformat] at h
    cases vmalloced with
    | none => cases h
    | some codeBuf =>
        simp only at h
        split at h
        · cases h
        · split at h
          · cases h
          · injection h with h
            exact ⟨by omega, codeBuf, h.symm⟩

/-- A buffer of a multiple of 128 bit is encrypted, if there is memory for it. -/
theorem encryptCode_ok (c : Cipher) (codeBuf : ℤ) (mem : ℤ → Word) (hdvd : 4 ∣ buf.length)
    (hlt : 4 * buf.length < 2 ^ 31) :
    encryptCode c (some codeBuf) true mem buf = .ok (copyToUser
      (encryptCodeBlocks c codeBuf (copyFromUser mem codeBuf buf) (4 * buf.length)) codeBuf
      buf.length) := by
  simp only [encryptCode]
  rw [if_neg (by omega), if_neg (by simp), if_neg (by omega)]

/-- Every word behind the init vector is found in the decrypted line, wherever the encrypted
buffer has been copied to. -/
theorem encryptCode_decode (hb : Build.Inverts (some c))
    (h : encryptCode c vmalloced copied mem buf = .ok enc) {q : ℤ} (hlies : Lies mem' q enc)
    {i : ℕ} {w : Word} (hi : 4 ≤ i) (hw : buf[i]? = some w) :
    (Build.mode (some c)).decode (linesFrom mem' q) (i / 4 : ℕ) (lane (4 * (i : ℕ))) = w := by
  obtain ⟨hdvd, codeBuf, rfl⟩ := encryptCode_eq_ok h
  have hlt := (List.getElem?_eq_some_iff.mp hw).1
  have hcur := hlies.line (k := (i / 4 : ℕ)) (by omega) (by omega)
  have hprev := hlies.line (k := (i / 4 : ℕ) - 1) (by omega) (by omega)
  have hloop : linesFrom (encryptCodeBlocks c codeBuf (copyFromUser mem codeBuf buf)
      (4 * buf.length)) codeBuf = (Build.mode (some c)).encrypt (4 * buf.length / 16 - 1) 1
        (linesFrom (copyFromUser mem codeBuf buf) codeBuf) :=
    linesFrom_encrypt c codeBuf _ 1 _
  rw [Mode.decode_congr _ hcur hprev, hloop,
    Mode.decode_encrypt hb.lawful _ _ _ (by omega) (by omega)]
  have haddr : codeBuf + 16 * ((i / 4 : ℕ) : ℤ) + 4 * ((lane (4 * (i : ℤ)) : Fin 4) : ℕ) =
      codeBuf + 4 * (i : ℕ) := by
    simp only [lane]
    omega
  rw [linesFrom, lineAt, haddr]
  exact copyFromUser_lies mem codeBuf buf i w hw

/-- The word `a` behind the init vector is the word `a` of the program. -/
theorem programOf_at (hb : Build.Inverts (some c))
    (h : encryptCode c vmalloced copied mem buf = .ok enc) {inv : InvokeCtx} (hacc : inv.Accepted)
    (hsize : inv.codeBufSize.toNat = 4 * enc.length) {bufs : Buffers}
    (hlies : Lies mem' bufs.codeBuf enc) {a : ℕ} {w : Word} (hw : buf[4 + a]? = some w) :
    (programOf (some c) (createRuntimeCtx (some c) inv bufs) mem').At a w := by
  have hlt := (List.getElem?_eq_some_iff.mp hw).1
  have hlength : enc.length = buf.length := by
    obtain ⟨-, codeBuf, rfl⟩ := encryptCode_eq_ok h
    exact length_copyToUser ..
  have hseg := (createRuntimeCtx_codeSegSize c hacc bufs).mpr (by omega)
  have hin : 4 * a < (createRuntimeCtx (some c) inv bufs).codeSegSize := by omega
  refine ⟨?_, hin⟩
  obtain ⟨k, hk⟩ : (16 : ℤ) ∣ bufs.codeBuf := Dvd.dvd.trans (by decide) bufs.code_al
  have hbp : (createRuntimeCtx (some c) inv bufs).codeSegBp = 16 * k + 16 := by
    rw [← hk]
    rfl
  have hword := encryptCode_decode hb h hlies (Nat.le_add_right 4 a) hw
  have hshift : (Build.mode (some c)).decode (linesFrom mem' bufs.codeBuf) ((4 + a) / 4 : ℕ) =
      (Build.mode (some c)).decode (lines mem') (k + ((4 + a) / 4 : ℕ)) := by
    rw [Mode.decode, Mode.decode, hk, linesFrom_line, linesFrom_line, ← add_sub_assoc]
  rw [hshift] at hword
  have hline : (16 * k + 16 + 4 * (a : ℤ)) / 16 = k + ((4 + a) / 4 : ℕ) := by omega
  have hlane : lane (16 * k + 16 + 4 * (a : ℤ)) = lane (4 * ((4 + a : ℕ) : ℤ)) := by
    rw [lane_eq_iff]
    simp only [lane]
    omega
  simp only [programOf, if_pos hin, wordAt, hbp, hline, hlane]
  exact hword

end RoundTrip

/-- `fetch_instr_line` and `extr_next_instr` fetch the plaintext at the instruction pointer. -/
theorem fetchWord_run (b : Build) (s : St) :
    ∃ s', (do
      fetchInstrLine b
      extrNextInstr) s = .ok (wordAt (b.mode.decode (lines s.mem)) s.curInstrPtr) s' := by
  have hfetch := bind_ok (f := fun _ => extrNextInstr) (fetchInstrLine_run b s)
  rw [extrNextInstr, extrByOfs_ofsFromPtr] at hfetch
  exact ⟨_, hfetch⟩

/-- Where no call of the system fails, a code list of less than 2 GiB is laid out and
encrypted. -/
theorem pipeline_total (c : Cipher) (head : List CodeElem) (malloced iv padding : ℕ → Word)
    (codeBuf : ℤ) (mem : ℤ → Word) (hsize : 4 * codebufSize head false < 2 ^ 31) :
    ∃ buf enc, buildCodebuf (some malloced) (some iv) (some padding) head false = .ok buf ∧
      encryptCode c (some codeBuf) true mem buf = .ok enc := by
  have hroom := lt_codebufSize head false
  rw [codeStart, if_neg (by simp)] at hroom
  have hempty : Filled (codebufSize head false) []
      ((List.range (codebufSize head false)).map malloced) := ⟨by simp, rfl⟩
  obtain ⟨buf, hwrite, hfilled⟩ := hempty.writeWords ((List.range' 0 4).map iv)
    (by simp; omega)
  have hiv : writeIv (some iv) ((List.range (codebufSize head false)).map malloced) false =
      .ok buf := hwrite
  have hbuf := buildCodebuf_stages (some padding) (by omega) hiv hfilled rfl
  have hlength := length_bufferWords ([] ++ (List.range' 0 4).map iv) padding head
  rw [List.nil_append, List.length_map, List.length_range'] at hlength
  rw [codebufSize_eq, codeStart, if_neg (by simp)] at hsize
  exact ⟨_, _, hbuf, encryptCode_ok c codeBuf mem (by simp only [List.nil_append]; omega)
    (by simp only [List.nil_append]; omega)⟩

/-- A code list on its way into the interpreter: the buffers it passes through, and an
invocation that is accepted with the last of them. -/
structure Deployment (c : Cipher) (head : List CodeElem) where
  malloced : WordSource
  iv : WordSource
  padding : WordSource
  buf : List Word
  built : buildCodebuf malloced iv padding head false = .ok buf
  vmalloced : Option ℤ
  copied : Bool
  mem : ℤ → Word
  enc : List Word
  encrypted : encryptCode c vmalloced copied mem buf = .ok enc
  inv : InvokeCtx
  accepted : inv.Accepted
  codeBufSize : inv.codeBufSize.toNat = 4 * enc.length
  bufs : Buffers

namespace Deployment

variable {c : Cipher} {head : List CodeElem} (D : Deployment c head)

/-- What `create_runtime_ctx` makes of the invocation. -/
def ctx : Ctx := createRuntimeCtx (some c) D.inv D.bufs

/-- The encrypted buffer is in the memory of the backend. -/
def Loaded (s : St) : Prop := Lies s.mem D.bufs.codeBuf D.enc

theorem aligned : D.ctx.Aligned := createRuntimeCtx_aligned _ D.accepted _

/-- **The code segment holds the code list**, and `FINISH` behind it. -/
theorem programOf_holds (hb : Build.Inverts (some c)) {s : St} (hs : D.Loaded s) :
    (programOf (some c) D.ctx s.mem).Holds 0 (head ++ [elem .finish 0]) := by
  obtain ⟨ivw, pad, hiv, hbuf⟩ := buildCodebuf_eq_ok D.built
  intro j w hj
  rw [Nat.zero_add]
  refine programOf_at hb D.encrypted D.accepted D.codeBufSize hs ?_
  have hiv : ivw.length = 4 := hiv
  have hfinish : encode [elem .finish 0] = [(instrInfo .finish).opcode] := rfl
  rw [encode_append, hfinish] at hj
  have hlt := (List.getElem?_eq_some_iff.mp hj).1
  rw [hbuf, bufferWords, List.append_assoc ivw, List.append_assoc ivw,
    List.getElem?_append_right (by omega), hiv, Nat.add_sub_cancel_left,
    List.getElem?_append_left hlt, hj]

theorem carries (hb : Build.Inverts (some c)) {s : St} (hs : D.Loaded s) {args : List Word}
    (hargc : D.ctx.argc = args.length) (hargv : ∀ j w, args[j]? = some w → D.ctx.argv j = w) :
    (programOf (some c) D.ctx s.mem).Carries (head ++ [elem .finish 0]) args :=
  ⟨D.programOf_holds hb hs, hargc, hargv⟩

theorem four_dvd_codeSegSize : 4 ∣ D.ctx.codeSegSize := by
  have hacc := D.accepted.2
  simp only [ctx, createRuntimeCtx, Build.ivSize, BitVec.toNat_sub, BitVec.toNat_ofNat]
  omega

/-- **The interpreter fetches the words of the code list**, and `FINISH` behind them. -/
theorem fetches (hb : Build.Inverts (some c)) {s : St} (hs : D.Loaded s) {a : ℕ} {w : Word}
    (hw : (encode (head ++ [elem .finish 0]))[a]? = some w)
    (hptr : s.curInstrPtr = D.ctx.codeSegBp + 4 * (a : ℕ)) :
    4 * a < D.ctx.codeSegSize ∧
      ∃ s', (do
        fetchInstrLine (some c)
        extrNextInstr) s = .ok w s' := by
  have hat := D.programOf_holds hb hs a w hw
  rw [Nat.zero_add] at hat
  have hlt := hat.lt
  have hword := hat.code
  simp only [programOf] at hword hlt
  rw [if_pos hlt, ← hptr] at hword
  obtain ⟨s', hfetch⟩ := fetchWord_run (some c) s
  rw [hword] at hfetch
  exact ⟨hlt, s', hfetch⟩

/-- **The handlers split the segment** into the instructions of the code list. -/
theorem reads (hb : Build.Inverts (some c)) {s : St} (hs : D.Loaded s) {operands : List Word}
    (hoperands : NonzeroOperands operands) :
    ∃ r, readInstrs (head.length + 1)
        ⟨(programOf (some c) D.ctx s.mem).segmentWords, operands⟩ =
      .ok ((head ++ [elem .finish 0]).map CodeElem.encode) r := by
  have hholds := D.programOf_holds hb hs
  obtain ⟨rest, hrest⟩ := hholds.segmentWords_eq D.four_dvd_codeSegSize
  obtain ⟨operands', hread⟩ := readInstrs_encode (head ++ [elem .finish 0]) rest hoperands
  rw [List.length_append, List.length_singleton] at hread
  rw [hrest]
  exact ⟨_, hread⟩

end Deployment

theorem buildCodebuf_ne_overrun (malloced iv padding : WordSource) (head : List CodeElem)
    (unencrypted : Bool) : buildCodebuf malloced iv padding head unencrypted ≠ .error .overrun := by
  intro h
  rcases buildCodebuf_cases malloced iv padding head unencrypted with
    ⟨e, hne, herror⟩ | ⟨_, _, -, hok⟩
  · rw [herror] at h
    exact hne (Except.error.inj h)
  · rw [hok] at h
    cases h

/-- **The code pipeline round-trips.**  The buffer of a code list is never overrun, is a
multiple of four words long, and keeps its length when it is encrypted.  Wherever the backend
has copied it to, the line that is fetched for the word address `a` holds the word `a` of the
code list, or `FINISH` behind it, and no such address is outside the code segment.  The handlers
of the backend split the words of the segment back into the instructions of the list. -/
theorem pipeline_round_trips {c : Cipher} (hb : Build.Inverts (some c)) {head : List CodeElem}
    (D : Deployment c head) :
    (∀ malloced iv padding unencrypted,
      buildCodebuf malloced iv padding head unencrypted ≠ .error .overrun) ∧
    4 ∣ D.buf.length ∧ D.enc.length = D.buf.length ∧
    ∀ s, D.Loaded s →
      (∀ (a : ℕ) (w : Word), (encode (head ++ [elem .finish 0]))[a]? = some w →
        s.curInstrPtr = D.ctx.codeSegBp + 4 * (a : ℕ) →
        4 * a < D.ctx.codeSegSize ∧
        ∃ s', (do
          fetchInstrLine (some c)
          extrNextInstr) s = .ok w s') ∧
      ∀ operands, NonzeroOperands operands →
        ∃ r, readInstrs (head.length + 1)
            ⟨(programOf (some c) D.ctx s.mem).segmentWords, operands⟩ =
          .ok ((head ++ [elem .finish 0]).map CodeElem.encode) r := by
  obtain ⟨hdvd, codeBuf, hcopy⟩ := encryptCode_eq_ok D.encrypted
  refine ⟨fun malloced iv padding => buildCodebuf_ne_overrun malloced iv padding head, hdvd,
    by rw [hcopy, length_copyToUser], fun s hs => ?_⟩
  exact ⟨fun a w hw hptr => D.fetches hb hs hw hptr, fun operands h => D.reads hb hs h⟩

def countdownBuf : List Word := bufferWords [0, 1, 2, 3] (fun _ => 0) countdownCode

theorem length_countdownBuf : countdownBuf.length = 48 := by decide

/-- The code of `countdown`, with the argument 3. -/
def countdownDeployment : Deployment (keyCipher 5) countdownCode where
  malloced := some fun _ => 0
  iv := some fun i => BitVec.ofNat 32 i
  padding := some fun _ => 0
  buf := countdownBuf
  built := by rfl
  vmalloced := some 0
  copied := true
  mem := fun _ => 0
  enc := copyToUser (encryptCodeBlocks (keyCipher 5) 0 (copyFromUser (fun _ => 0) 0 countdownBuf)
    (4 * countdownBuf.length)) 0 countdownBuf.length
  encrypted := encryptCode_ok _ _ _ (by decide) (by decide)
  inv := { smallInvoke 192 with argBufSize := 4 }
  accepted := by decide
  codeBufSize := by
    rw [length_copyToUser, length_countdownBuf]
    decide
  bufs := { smallBuffers with
    stackBuf := 1024, callBuf := 2048, printBuf := 4096, argv := fun _ => 3
    stack_al := by decide
    call_al := by decide
    print_al := by decide }

/-- Its buffer has been copied to the address 0, and the instruction pointer is at the loop. -/
def countdownState : St :=
  { nopState with mem := copyFromUser (fun _ => 0) 0 countdownDeployment.enc, curInstrPtr := 76 }

theorem countdownState_loaded : countdownDeployment.Loaded countdownState :=
  copyFromUser_lies (fun _ => 0) 0 countdownDeployment.enc

theorem pipeline_round_trips_small :
    (60 < countdownDeployment.ctx.codeSegSize ∧
    ∃ s', (do
      fetchInstrLine (some (keyCipher 5))
      extrNextInstr) countdownState = .ok (instrInfo .push).opcode s') ∧
    ∃ r, readInstrs 24 ⟨(programOf (some (keyCipher 5)) countdownDeployment.ctx
        countdownState.mem).segmentWords, [7, 7, 1, 2]⟩ =
      .ok ((countdownCode ++ [elem .finish 0]).map CodeElem.encode) r := by
  have hround := (pipeline_round_trips (keyCipher_build_inverts 5) countdownDeployment).2.2.2
    countdownState countdownState_loaded
  exact ⟨hround.1 15 _ (by decide) (by decide), hround.2 _ (by unfold NonzeroOperands; decide)⟩

/-- The invocation stops because a stack is full, after it has printed some of `o`. -/
def Overflows (b : Build) (ctx : Ctx) (regs : CalleeRegs) (s : St) (o : List Word) : Prop :=
  ∃ e o', Overflow e ∧ InvocationEnds b ctx regs s o' e.code ∧ o' <+: o

/-- How an invocation ends on large stacks, given what its program means. -/
def InvocationMeans (b : Build) (ctx : Ctx) (regs : CalleeRegs) (s : St)
    (x : Sem (Option Word)) : Prop :=
  match x.result with
  | .ok _ => InvocationEnds b ctx regs s x.out 0
  | .error (.fault e) => InvocationEnds b ctx regs s x.out e.code
  | .error _ => True

/-- How an invocation ends, given what its program means. -/
def InvocationOutcome (b : Build) (ctx : Ctx) (regs : CalleeRegs) (s : St)
    (x : Sem (Option Word)) : Prop :=
  match x.result with
  | .ok _ => InvocationEnds b ctx regs s x.out 0 ∨ Overflows b ctx regs s x.out
  | .error (.fault e) => InvocationEnds b ctx regs s x.out e.code ∨ Overflows b ctx regs s x.out
  | .error _ => True

section Invocations
variable {b : Build} {ctx : Ctx} {s : St}

/-- An invocation that finishes does not overflow a stack. -/
theorem not_overflows (hb : b.Inverts) (hc : ctx.Aligned) (hd : ctx.Apart) (regs : CalleeRegs)
    {n : ℕ} {t : Flat}
    (hrun : dispatchLoop (flatMacros (programOf b ctx s.mem)) n .initial = .ok .finish t)
    (o : List Word) : ¬ Overflows b ctx regs s o := by
  rintro ⟨e, o', hoverflow, hends, -⟩
  have hclean : Clean (programOf b ctx s.mem) := .of_stop hrun (by simp) (by simp) (by simp)
  have hfinish : InvocationEnds b ctx regs s t.printed 0 :=
    invocationEnds_of_finish hb hc hd hrun
  have hcode := (invocationEnds_unique hb hc hd hclean hfinish hends).2
  rcases hoverflow with rfl | rfl
  · cases hcode
  · cases hcode

/-- **An invocation does what the plain machine does.** -/
theorem Program.Outcome.means {k : ℕ} {x : Sem (Option Word)} (hb : b.Inverts)
    (hc : ctx.Aligned) (hd : ctx.Apart) (regs : CalleeRegs)
    (h : (programOf b ctx s.mem).Outcome k x) :
    InvocationMeans b ctx regs s x ∨ ∃ e o, (programOf b ctx s.mem).Stops e o ∧ Overflow e ∧
      o <+: x.out := by
  rcases h with ⟨n, t, e, herror, hoverflow, hprefix⟩ | hend
  · exact .inr ⟨e, t.printed, ⟨n, t, herror, rfl⟩, hoverflow, hprefix⟩
  left
  rw [InvocationMeans]
  cases hx : x.result with
  | ok v =>
      rw [hx] at hend
      obtain ⟨n, t, hfinish, hout⟩ := hend
      rw [← hout]
      exact invocationEnds_of_finish hb hc hd hfinish
  | error trap =>
      rw [hx] at hend
      cases trap with
      | fault e =>
          obtain ⟨n, t, herror, hout⟩ := hend
          rw [← hout]
          exact invocationEnds_of_error hb hc hd herror
      | timeout => trivial
      | undefined => trivial

/-- A stack that is full ends the invocation before. -/
theorem Program.Outcome.invocation {k : ℕ} {x : Sem (Option Word)} (hb : b.Inverts)
    (hc : ctx.Aligned) (hd : ctx.Apart) (regs : CalleeRegs)
    (h : (programOf b ctx s.mem).Outcome k x) : InvocationOutcome b ctx regs s x := by
  rcases h.means hb hc hd regs with hmeans | ⟨e, _, ⟨n, t, herror, rfl⟩, hoverflow, hprefix⟩
  · rw [InvocationMeans] at hmeans
    rw [InvocationOutcome]
    split at hmeans
    · exact .inl hmeans
    · exact .inl hmeans
    · trivial
  · have hover : Overflows b ctx regs s x.out :=
      ⟨e, t.printed, hoverflow, invocationEnds_of_error hb hc hd herror, hprefix⟩
    rw [InvocationOutcome]
    split
    · exact .inr hover
    · exact .inr hover
    · trivial

/-- A program that has no end by any bound keeps the interpreter busy for ever. -/
theorem Program.Outcome.never_halted {x : ℕ → Sem (Option Word)} (hb : b.Inverts)
    (hc : ctx.Aligned) (hd : ctx.Apart) (regs : CalleeRegs)
    (h : ∀ k, (programOf b ctx s.mem).Outcome k (x k))
    (htime : ∀ k, (x k).result = .error .timeout) :
    (∀ n, ¬ Halted (Bispe.invocation b ctx regs s n)) ∨ ∃ k, Overflows b ctx regs s (x k).out := by
  by_cases hover : ∃ k, Overflows b ctx regs s (x k).out
  · exact .inr hover
  · left
    refine Bispe.never_halted hb hc hd fun n => ?_
    rcases h n with ⟨m, t, e, herror, hoverflow, hprefix⟩ | hend
    · exact absurd ⟨n, e, t.printed, hoverflow, invocationEnds_of_error hb hc hd herror, hprefix⟩
        hover
    · rw [htime n] at hend
      obtain ⟨m, t, hle, hnext, -⟩ := hend
      by_contra hstopped
      push Not at hstopped
      have hlt := Program.next_lt hnext rfl hstopped
      omega

end Invocations

/-- How all invocations of a program behave, with the bounds on its meaning. -/
structure Behaves (b : Build) (ctx : Ctx) (regs : CalleeRegs) (s : St)
    (x : ℕ → Sem (Option Word)) : Prop where
  ends : ∀ k, InvocationOutcome b ctx regs s (x k)
  runs : (∀ k, (x k).result = .error .timeout) →
    (∀ n, ¬ Halted (invocation b ctx regs s n)) ∨ ∃ k, Overflows b ctx regs s (x k).out

theorem Behaves.of_outcome {b : Build} {ctx : Ctx} {s : St} {x : ℕ → Sem (Option Word)}
    (hb : b.Inverts) (hc : ctx.Aligned) (hd : ctx.Apart) (regs : CalleeRegs)
    (h : ∀ k, (programOf b ctx s.mem).Outcome k (x k)) : Behaves b ctx regs s x where
  ends k := (h k).invocation hb hc hd regs
  runs := Program.Outcome.never_halted hb hc hd regs h

section Deployed
variable {junk : Junk} {t : FuncTable} {items : List Item} {code : List CodeElem} {g : GState}
  {args : List Word} {c : Cipher}

/-- The program in the code segment does what its source means. -/
theorem Deployment.outcome (hreg : Registers (fun _ => none) items t)
    (hgen : generateCode junk t (headNode items) = .ok (some code) g) (hwf : WellFormed items)
    (hsize : itemsSize items < 2 ^ 30) (hargs : EnoughArgs items args)
    (hb : Build.Inverts (some c)) (D : Deployment c code)
    (hargc : D.ctx.argc = args.length) (hargv : ∀ j w, args[j]? = some w → D.ctx.argv j = w)
    {s : St} (hs : D.Loaded s) (k : ℕ) :
    (programOf (some c) D.ctx s.mem).Outcome k (runProgram items args k) :=
  generated_outcome hreg hgen hwf hsize hargs (D.carries hb hs hargc hargv) k

/-- **Large stacks do not overflow.**  From some stack sizes on, every invocation of a program
that has an end by some bound ends as the program means. -/
theorem large_invocation (hreg : Registers (fun _ => none) items t)
    (hgen : generateCode junk t (headNode items) = .ok (some code) g) (hwf : WellFormed items)
    (hsize : itemsSize items < 2 ^ 30) (hargs : EnoughArgs items args)
    (hb : Build.Inverts (some c)) {k : ℕ}
    (htime : (runProgram items args k).result ≠ .error .timeout)
    (hdef : (runProgram items args k).result ≠ .error .undefined) :
    ∃ stackWords callWords, ∀ D : Deployment c code, D.ctx.Apart → D.ctx.argc = args.length →
      (∀ j w, args[j]? = some w → D.ctx.argv j = w) → stackWords ≤ D.ctx.stackSegSize / 4 →
      callWords ≤ D.ctx.callSegSize / 4 → ∀ regs s, D.Loaded s →
        InvocationMeans (some c) D.ctx regs s (runProgram items args k) := by
  obtain ⟨stackWords, callWords, hlarge⟩ :=
    generated_hasRoom hreg hgen hwf hsize hargs htime hdef
  refine ⟨stackWords, callWords, fun D hd hargc hargv hstack hcall regs s hs => ?_⟩
  have hroom := hlarge _ (D.carries hb hs hargc hargv) hstack hcall
  have houtcome := D.outcome hreg hgen hwf hsize hargs hb hargc hargv hs k
  refine (houtcome.means hb D.aligned hd regs).resolve_right ?_
  rintro ⟨e, o, hstops, hoverflow, -⟩
  exact hroom e o hstops hoverflow

end Deployed

theorem countdownDeployment_apart : countdownDeployment.ctx.Apart := by
  have hcode : countdownDeployment.ctx.codeSegBp = 16 ∧
      countdownDeployment.ctx.codeSegSize = 176 := by decide
  have hstack : countdownDeployment.ctx.stackSegBp = 1040 ∧
      countdownDeployment.ctx.stackSegSize = 16 := by decide
  have hcall : countdownDeployment.ctx.callSegBp = 2064 ∧
      countdownDeployment.ctx.callSegSize = 16 := by decide
  have hprint : countdownDeployment.ctx.printSegBp = 4096 ∧
      countdownDeployment.ctx.printSegSize = 16 := by decide
  refine ⟨by omega, ?_, by omega, by omega, by omega⟩
  intro a hlo hhi
  unfold Ctx.InData
  omega

end Bispe
