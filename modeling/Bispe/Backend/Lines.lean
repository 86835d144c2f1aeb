import Bispe.Backend.Interpreter
import Mathlib.Tactic.Ring

/-!
# Lines of memory

Every access of the interpreter to the operand and call stack moves one aligned
line.  Seen by line numbers, memory is a chained block memory, and the crypto
wrapper macros are its operations: `decrypt_memory_cbc` reads a plaintext,
`encrypt_reg_cbc` writes a block, `encrypt_reg_cbc_chain` re-encrypts a chain.

## Main definitions

* `lines` — memory as a function of the line number.
* `Build.mode` — the chaining mode of a build.
* `decryptMemoryCbc_run`, `encryptRegCbc_run`, `encryptRegCbcChain_run` — what the
  wrapper macros do.
-/

namespace Bispe

open Effect Chaining

/-- Memory by lines: line `k` starts at address `16 * k`. -/
def lines (mem : ℤ → Word) (k : ℤ) : Line := lineAt mem (16 * k)

/-- The chaining mode of a build.  Without `ENCRYPTION` lines are plaintext. -/
def Build.mode : Build → Mode Line
  | none => .plain
  | some c => ⟨c.encblk, c.decblk, vpxor⟩

/-- Decryption undoes encryption in a build with a cipher. -/
def Build.Inverts (b : Build) : Prop := ∀ c, b = some c → ∀ x, c.decblk (c.encblk x) = x

theorem vpxor_vpxor (x y : Line) : vpxor (vpxor x y) y = x := by
  funext i
  change x i ^^^ y i ^^^ y i = x i
  rw [BitVec.xor_assoc, BitVec.xor_self, BitVec.xor_zero]

theorem Build.Inverts.lawful {b : Build} (h : b.Inverts) : b.mode.Lawful := by
  cases b with
  | none => exact Mode.plain_lawful
  | some c => exact ⟨h c rfl, vpxor_vpxor⟩

/-! ## Addresses -/

@[simp] theorem alignPtr_line (k : ℤ) (i : Fin 16) : alignPtr (16 * k + (i : ℕ)) = 16 * k := by
  unfold alignPtr; omega

theorem alignPtr_eq (p : ℤ) : alignPtr p = 16 * (p / 16) := by unfold alignPtr; omega

theorem lane_eq_iff (p : ℤ) (i : Fin 4) : lane p = i ↔ p / 4 % 4 = (i : ℕ) := by
  rw [Fin.ext_iff]
  simp only [lane]
  omega

@[simp] theorem lane_line (k : ℤ) (i : Fin 4) : lane (16 * k + 4 * (i : ℕ)) = i := by
  rw [lane_eq_iff]; omega

@[simp] theorem lane_ofsFromPtr (p : ℤ) : lane (ofsFromPtr p) = lane p := by
  rw [lane_eq_iff]
  simp only [ofsFromPtr, lane]
  omega

theorem extrByOfs_ofsFromPtr (x : Line) (p : ℤ) : extrByOfs x (ofsFromPtr p) = x (lane p) := by
  rw [extrByOfs, lane_ofsFromPtr]

theorem insByOfs_ofsFromPtr (w : Word) (x : Line) (p : ℤ) :
    insByOfs w x (ofsFromPtr p) = Function.update x (lane p) w := by
  have h : ofsFromPtr p = 4 * ((lane p : Fin 4) : ℕ) := by
    simp only [ofsFromPtr, lane]; omega
  rw [insByOfs, h]
  match lane p with
  | 0 => rfl
  | 1 => rfl
  | 2 => rfl
  | 3 => rfl

/-! ## Reading and writing lines -/

theorem lines_storeLine (mem : ℤ → Word) (k : ℤ) (x : Line) :
    lines (storeLine mem (16 * k) x) = Function.update (lines mem) k x := by
  funext j i
  by_cases h : j = k
  · subst h
    have hi : lane (4 * ((i : ℕ) : ℤ)) = i := by rw [lane_eq_iff]; omega
    rw [Function.update_self, lines, lineAt, storeLine, if_pos (by omega), add_sub_cancel_left, hi]
  · rw [Function.update_of_ne h, lines, lineAt, storeLine, if_neg (by omega)]
    rfl

/-- An update of one dword changes the line it lies in. -/
theorem lines_update_of_ne (mem : ℤ → Word) (p : ℤ) (w : Word) {k : ℤ} (h : p / 16 ≠ k) :
    lines (Function.update mem p w) k = lines mem k := by
  funext i
  exact Function.update_of_ne (by omega) ..

theorem storeLine_of_outside (mem : ℤ → Word) {p a : ℤ} (x : Line) (h : a < p ∨ p + 16 ≤ a) :
    storeLine mem p x a = mem a := if_neg (by omega)

/-! ## The crypto wrapper macros -/

/-- The lines `decrypt_memory_cbc` reads. -/
def decryptLog (b : Build) (seg : Seg) (p : ℤ) : List Event :=
  match b with
  | none => [.read seg p]
  | some _ => [.read seg p, .read seg (p - 16)]

theorem decryptMemoryCbc_run (b : Build) (seg : Seg) (k : ℤ) (s : St) :
    decryptMemoryCbc b seg (16 * k) s =
      .ok (b.mode.decode (lines s.mem) k) { s with log := s.log ++ decryptLog b seg (16 * k) } := by
  cases b with
  | none => rfl
  | some c =>
      have h : (16 * k - 16 : ℤ) = 16 * (k - 1) := by ring
      simp only [decryptMemoryCbc, run_bind, readLine, run_pure, decryptLog, h, List.append_assoc,
        List.cons_append, List.nil_append]
      rfl

/-- The lines `encrypt_reg_cbc` reads and writes. -/
def encryptLog (b : Build) (seg : Seg) (p : ℤ) : List Event :=
  match b with
  | none => [.write seg p]
  | some _ => [.read seg (p - 16), .write seg p]

theorem encryptRegCbc_run (b : Build) (seg : Seg) (x : Line) (k : ℤ) (s : St) :
    encryptRegCbc b seg x (16 * k) s = .ok () { s with
      mem := storeLine s.mem (16 * k) (b.mode.link x (lines s.mem (k - 1)))
      log := s.log ++ encryptLog b seg (16 * k) } := by
  cases b with
  | none => rfl
  | some c =>
      have h : (16 * k - 16 : ℤ) = 16 * (k - 1) := by ring
      simp only [encryptRegCbc, run_bind, readLine, writeLine, encryptLog, h, List.append_assoc,
        List.cons_append, List.nil_append]
      rfl

theorem fetchInstrLine_run (b : Build) (s : St) :
    fetchInstrLine b s = .ok () { s with
      rinstrLine := b.mode.decode (lines s.mem) (s.curInstrPtr / 16)
      log := s.log ++ decryptLog b .code (16 * (s.curInstrPtr / 16)) } := by
  rw [fetchInstrLine, bind_ok (run_get s), alignPtr_eq, bind_ok (decryptMemoryCbc_run ..)]
  rfl

theorem fetchStackLine_run (b : Build) (s : St) :
    fetchStackLine b s = .ok () { s with
      rstackLine := b.mode.decode (lines s.mem) (s.curStackPtr / 16)
      log := s.log ++ decryptLog b .stack (16 * (s.curStackPtr / 16)) } := by
  rw [fetchStackLine, bind_ok (run_get s), alignPtr_eq, bind_ok (decryptMemoryCbc_run ..)]
  rfl

theorem saveStackLine_run (b : Build) (s : St) :
    saveStackLine b s = .ok () { s with
      mem := storeLine s.mem (16 * (s.curStackPtr / 16))
        (b.mode.link s.rstackLine (lines s.mem (s.curStackPtr / 16 - 1)))
      log := s.log ++ encryptLog b .stack (16 * (s.curStackPtr / 16)) } := by
  rw [saveStackLine, bind_ok (run_get s), alignPtr_eq, encryptRegCbc_run]

/-- The lower bound is checked for the target line. -/
theorem forceCallLineFetch_run (b : Build) (ctx : Ctx) (k : ℤ) (s : St)
    (h : ctx.callSegBp ≤ 16 * k) :
    forceCallLineFetch b ctx (16 * k) s = .ok () { s with
      rcallLine := b.mode.decode (lines s.mem) k
      curCallLine := 16 * k
      log := s.log ++ decryptLog b .call (16 * k) } := by
  rw [forceCallLineFetch, if_neg (not_lt.mpr h), bind_ok (decryptMemoryCbc_run ..)]
  rfl

/-- **The entry loads a line of each segment.** -/
theorem bispeCycleEntry_run (b : Build) (ctx : Ctx) (s : St)
    (h : ctx.callSegBp ≤ 16 * (s.callPtr / 16)) :
    bispeCycleEntry b ctx s = .ok () { s with
      instrCnt := 0
      curInstrPtr := s.instrPtr
      curStackPtr := s.stackPtr
      curCallPtr := s.callPtr
      curCallLine := 16 * (s.callPtr / 16)
      rinstrLine := b.mode.decode (lines s.mem) (s.instrPtr / 16)
      rstackLine := b.mode.decode (lines s.mem) (s.stackPtr / 16)
      rcallLine := b.mode.decode (lines s.mem) (s.callPtr / 16)
      log := s.log ++ decryptLog b .code (16 * (s.instrPtr / 16)) ++
        decryptLog b .stack (16 * (s.stackPtr / 16)) ++
        decryptLog b .call (16 * (s.callPtr / 16)) } := by
  rw [bispeCycleEntry, bind_ok (run_modify _ s), loadStatePtrs, bind_ok (run_modify _ _),
    bind_ok (fetchInstrLine_run b _), bind_ok (fetchStackLine_run b _), bind_ok (run_get _),
    alignPtr_eq, forceCallLineFetch_run _ _ _ _ h]

/-- An access of a chain rewrite that starts at line `k` and ends at line `l`:
it writes lines of the chain, and reads them and the one before. -/
def Event.InChain (seg : Seg) (k l : ℤ) : Event → Prop
  | .read seg' p => seg' = seg ∧ ∃ j, p = 16 * j ∧ k - 1 ≤ j ∧ j ≤ l
  | .write seg' p => seg' = seg ∧ ∃ j, p = 16 * j ∧ k ≤ j ∧ j ≤ l
  | .chain dest last => dest = 16 * k ∧ last = 16 * l
  | _ => False

theorem Event.InChain.mono {seg : Seg} {k k' l : ℤ} {e : Event} (h : e.InChain seg k' l)
    (hk : k ≤ k') (hc : ∀ d d', e ≠ .chain d d') : e.InChain seg k l := by
  cases e with
  | read seg' p =>
      obtain ⟨hs, j, hj, h1, h2⟩ := h
      exact ⟨hs, j, hj, by omega, h2⟩
  | write seg' p =>
      obtain ⟨hs, j, hj, h1, h2⟩ := h
      exact ⟨hs, j, hj, by omega, h2⟩
  | chain d d' => exact (hc d d' rfl).elim
  | fetch p w => exact h
  | advance p => exact h
  | print p w => exact h

/-- The accesses of `n` iterations of the loop of `encrypt_reg_cbc_chain` from the
line at `p`, and of the store behind it.  An iteration reads the next line and its
predecessor, and writes the block of the iteration before. -/
def loopLog (seg : Seg) : ℕ → ℤ → List Event
  | 0, p => [.write seg p]
  | n + 1, p => .read seg (p + 16) :: .read seg p :: .write seg p :: loopLog seg n (p + 16)

/-- The accesses of `encrypt_reg_cbc_chain` with `n` lines behind the first. -/
def chainLog (b : Build) (seg : Seg) (p : ℤ) (n : ℕ) : List Event :=
  match b with
  | none => [.write seg p]
  | some _ => .chain p (p + 16 * n) :: .read seg (p - 16) :: loopLog seg n p

theorem loopLog_inChain (seg : Seg) (n : ℕ) (k : ℤ) {e : Event} (he : e ∈ loopLog seg n (16 * k)) :
    e.InChain seg k (k + n) ∧ ∀ d d', e ≠ .chain d d' := by
  induction n generalizing k with
  | zero =>
      rw [loopLog, List.mem_singleton] at he
      subst he
      exact ⟨⟨rfl, k, rfl, le_refl k, by omega⟩, by simp⟩
  | succ n ih =>
      have h16 : (16 * k + 16 : ℤ) = 16 * (k + 1) := by ring
      have hk : (k + 1 + n : ℤ) = k + (n + 1 : ℕ) := by push_cast; ring
      simp only [loopLog, List.mem_cons, h16] at he
      rcases he with rfl | rfl | rfl | he
      · exact ⟨⟨rfl, k + 1, rfl, by omega, by omega⟩, by simp⟩
      · exact ⟨⟨rfl, k, rfl, by omega, by omega⟩, by simp⟩
      · exact ⟨⟨rfl, k, rfl, by omega, by omega⟩, by simp⟩
      · have h := ih (k + 1) he
        rw [hk] at h
        exact ⟨h.1.mono (by omega) h.2, h.2⟩

theorem chainLog_inChain (b : Build) (seg : Seg) (n : ℕ) (k : ℤ) {e : Event}
    (he : e ∈ chainLog b seg (16 * k) n) : e.InChain seg k (k + n) := by
  cases b with
  | none =>
      rw [chainLog, List.mem_singleton] at he
      subst he
      exact ⟨rfl, k, rfl, le_refl k, by omega⟩
  | some c =>
      simp only [chainLog, List.mem_cons] at he
      rcases he with rfl | rfl | he
      · exact ⟨rfl, by ring⟩
      · exact ⟨rfl, k - 1, by ring, by omega, by omega⟩
      · exact (loopLog_inChain seg n k he).1

/-- **The loop ends**, having re-encrypted `n` lines, when its last line is `n`
lines above the first. -/
theorem encryptLoop_run (c : Cipher) (seg : Seg) (n : ℕ) (cur : Line) (k : ℤ) (s : St) :
    ∃ mem', encryptLoop c seg n cur (16 * k) (16 * (k + n)) s =
        .ok () { s with mem := mem', log := s.log ++ loopLog seg n (16 * k) } ∧
      lines mem' = Mode.rechain (Build.mode (some c)) n cur k (lines s.mem) ∧
      ∀ a, a < 16 * k ∨ 16 * (k + n) + 16 ≤ a → mem' a = s.mem a := by
  induction n generalizing cur k s with
  | zero =>
      refine ⟨storeLine s.mem (16 * k) cur, ?_, ?_, ?_⟩
      · rw [encryptLoop, if_pos (by push_cast; ring)]
        rfl
      · exact lines_storeLine ..
      · intro a ha
        exact storeLine_of_outside _ _ (by push_cast at ha; omega)
  | succ n ih =>
      have h16 : (16 * k + 16 : ℤ) = 16 * (k + 1) := by ring
      have hsub : (16 * (k + 1) - 16 : ℤ) = 16 * k := by ring
      have hlast : (16 * (k + (n + 1 : ℕ)) : ℤ) = 16 * (k + 1 + n) := by push_cast; ring
      obtain ⟨mem', hrun, hmem, hout⟩ := ih
        (c.encblk (vpxor (vpxor (c.decblk (lines s.mem (k + 1))) (lines s.mem k)) cur)) (k + 1)
        { s with
          mem := storeLine s.mem (16 * k) cur
          log := s.log ++ [.read seg (16 * (k + 1)), .read seg (16 * k), .write seg (16 * k)] }
      refine ⟨mem', ?_, ?_, ?_⟩
      · rw [encryptLoop, if_neg (by omega), hlast]
        simp only [run_bind, readLine, writeLine, loopLog, h16, hsub, List.append_assoc,
          List.cons_append, List.nil_append] at hrun ⊢
        exact hrun
      · rw [hmem, Mode.rechain, lines_storeLine]
        simp only [Mode.decode, add_sub_cancel_right]
        rfl
      · intro a ha
        rw [hout a (by push_cast at ha; omega)]
        exact storeLine_of_outside _ _ (by push_cast at ha; omega)

/-- **`encrypt_reg_cbc_chain` from line `k` up to line `k + n`.** -/
theorem encryptRegCbcChain_run (b : Build) (seg : Seg) (x : Line) (k : ℤ) (n : ℕ) (s : St) :
    ∃ mem', encryptRegCbcChain b seg x (16 * k) (16 * (k + n)) s =
        .ok () { s with mem := mem', log := s.log ++ chainLog b seg (16 * k) n } ∧
      lines mem' = b.mode.rechain n (b.mode.link x (lines s.mem (k - 1))) k (lines s.mem) ∧
      ∀ a, a < 16 * k ∨ 16 * (k + n) + 16 ≤ a → mem' a = s.mem a := by
  cases b with
  | none =>
      refine ⟨storeLine s.mem (16 * k) x, rfl, ?_, ?_⟩
      · rw [Build.mode, Mode.rechain_plain, lines_storeLine]
        rfl
      · intro a ha
        exact storeLine_of_outside _ _ (by omega)
  | some c =>
      have hn : ((16 * (k + n) - 16 * k) / 16 : ℤ).toNat = n := by omega
      have h : (16 * k - 16 : ℤ) = 16 * (k - 1) := by ring
      have hlast : (16 * k + 16 * n : ℤ) = 16 * (k + n) := by ring
      obtain ⟨mem', hrun, hmem, hout⟩ := encryptLoop_run c seg n
        (c.encblk (vpxor x (lines s.mem (k - 1)))) k
        { s with log := s.log ++ [.chain (16 * k) (16 * (k + n)), .read seg (16 * (k - 1))] }
      refine ⟨mem', ?_, hmem, hout⟩
      simp only [encryptRegCbcChain, hn, run_bind, run_modify, readLine, chainLog, h, hlast]
      simp only [List.append_assoc, List.cons_append, List.nil_append] at hrun ⊢
      exact hrun

/-- **A chain rewrite changes one plaintext.**  The loop makes one iteration for
each line behind the first; the first line then stands for the register, the
lines behind it stand for what they stood for, no other byte moves, and a build
without encryption comes to the same plaintexts. -/
theorem encryptRegCbcChain_changes_one_line {b : Build} (hb : b.Inverts) (seg : Seg) (src : Line)
    {dest last : ℤ} (hd : 16 ∣ dest) (hl : 16 ∣ last) (hle : dest ≤ last) (s : St) :
    ∃ mem', encryptRegCbcChain b seg src dest last s = .ok () { s with
        mem := mem'
        log := s.log ++ chainLog b seg dest ((last - dest) / 16).toNat } ∧
      b.mode.decode (lines mem') (dest / 16) = src ∧
      (∀ j, dest < 16 * j → 16 * j ≤ last →
        b.mode.decode (lines mem') j = b.mode.decode (lines s.mem) j) ∧
      (∀ a, a < dest ∨ last + 16 ≤ a → mem' a = s.mem a) ∧
      ∀ s₀ : St, ∃ mem₀, encryptRegCbcChain none seg src dest last s₀ =
          .ok () { s₀ with mem := mem₀, log := s₀.log ++ [.write seg dest] } ∧
        lines mem₀ = Function.update (lines s₀.mem) (dest / 16) src ∧
        ∀ j, dest ≤ 16 * j → 16 * j ≤ last → b.mode.decode (lines s.mem) j = lines s₀.mem j →
          b.mode.decode (lines mem') j = lines mem₀ j := by
  obtain ⟨k, rfl⟩ := hd
  obtain ⟨l, rfl⟩ := hl
  obtain ⟨n, hn⟩ := Int.eq_ofNat_of_zero_le (show 0 ≤ l - k by omega)
  obtain rfl : l = k + n := by omega
  have hk : 16 * k / 16 = k := by omega
  have hnum : ((16 * (k + n) - 16 * k) / 16 : ℤ).toNat = n := by omega
  obtain ⟨mem', hrun, hmem, hout⟩ := encryptRegCbcChain_run b seg src k n s
  have hdec : ∀ j, 16 * j ≤ 16 * (k + n) →
      b.mode.decode (lines mem') j = b.mode.held (lines s.mem) k src j := by
    intro j hj
    rw [hmem, Mode.decode_rechain_link hb.lawful _ _ _ _ (by omega)]
  rw [hk, hnum]
  refine ⟨mem', hrun, ?_, ?_, hout, ?_⟩
  · rw [hdec k (by omega), Mode.held_self]
  · intro j hj hj'
    rw [hdec j hj', Mode.held_of_ne _ _ _ (by omega)]
  · intro s₀
    refine ⟨storeLine s₀.mem (16 * k) src, rfl, lines_storeLine .., ?_⟩
    intro j hj hj' hsame
    rw [hdec j hj', lines_storeLine]
    by_cases hjk : j = k
    · rw [hjk, Mode.held_self, Function.update_self]
    · rw [Mode.held_of_ne _ _ _ hjk, Function.update_of_ne hjk, hsame]

/-- A rewrite of three lines under a cipher that mixes in one key word. -/
theorem encryptRegCbcChain_three_lines :
    ∃ mem', encryptRegCbcChain (some (keyCipher 5)) .call (fun _ => 9) 256 288 nopState =
        .ok () { nopState with
          mem := mem'
          log := [.chain 256 288, .read .call 240,
            .read .call 272, .read .call 256, .write .call 256,
            .read .call 288, .read .call 272, .write .call 272, .write .call 288] } ∧
      Mode.decode (Build.mode (some (keyCipher 5))) (lines mem') 16 = fun _ => 9 := by
  have hb : Build.Inverts (some (keyCipher 5)) := by
    intro c hc x
    cases hc
    exact keyCipher_inverts 5 x
  obtain ⟨mem', hrun, hdec, -⟩ := encryptRegCbcChain_changes_one_line hb .call (fun _ => 9)
    (by decide : (16 : ℤ) ∣ 256) (by decide : (16 : ℤ) ∣ 288) (by decide) nopState
  exact ⟨mem', hrun, hdec⟩

end Bispe
