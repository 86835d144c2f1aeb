import Bispe.Backend.Crypto
import Bispe.Lib.Fips197

/-!
# The crypto routines that work on memory

The routines of `bispe_crypto_asm.S` that C code calls: `bispe_set_key` moves the
key from memory to the debug registers, and the `_mem` routines load a block, run
the cipher and store the block.  Memory is byte
addressed and little-endian, and addresses wrap around at 64 bits.

## Main definitions

* `Crypto.Cpu` — the registers of the module, the argument registers and memory.
* `Crypto.MemInstr`, `Crypto.runMem` — instructions with a memory operand.
* `Crypto.bispeSetKey`, `Crypto.bispeEncblkMem`, `Crypto.bispeDecblkMem`,
  `Crypto.bispeEncblkMemCbc`, `Crypto.bispeDecblkMemCbc` — the routines.
-/

namespace Bispe.Crypto

open Aes Rounds

/-- Byte-addressed memory. -/
abbrev Mem := BitVec 64 → Aes.Byte

/-- The registers, the argument registers and memory. -/
structure Cpu where
  regs : Regs
  rdi : BitVec 64
  rsi : BitVec 64
  rdx : BitVec 64
  mem : Mem

/-- Four bytes at `p`, the least significant one first. -/
def load32 (mem : Mem) (p : BitVec 64) : Word := ofBytes fun r => mem (p + BitVec.ofNat 64 r)

/-- Eight bytes at `p`. -/
def load64 (mem : Mem) (p : BitVec 64) : BitVec 64 := load32 mem (p + 4) ++ load32 mem p

/-- Sixteen bytes at `p`. -/
def loadBlock (mem : Mem) (p : BitVec 64) : Line :=
  fun c => load32 mem (p + BitVec.ofNat 64 (4 * (c : ℕ)))

/-- Write sixteen bytes at `p`. -/
def storeBlock (mem : Mem) (p : BitVec 64) (x : Line) : Mem := fun a =>
  if (a - p).toNat < 16 then Fips197.byteOf x (Fin.ofNat 16 (a - p).toNat) else mem a

/-- Instructions of the memory routines. -/
inductive MemInstr
  | reg (i : Instr)
  | movqLoad (disp : BitVec 64)
  | movqToDb (dest : Fin 4)
  | vmovdquLoad (dest : Reg)
  | vmovdquStore (src : Reg)
  | vpxorMem (src₁ dest : Reg)
  deriving DecidableEq, Repr

def Regs.setDb (m : Regs) (i : Fin 4) (v : BitVec 64) : Regs :=
  { m with db := Function.update m.db i v }

/-- One instruction.  `movq` reads at `rdi`, `vmovdqu` reads at `rsi` and
writes at `rdi`, `vpxor` reads at `rdx`. -/
def execMem : MemInstr → Cpu → Cpu
  | .reg i, m => { m with regs := exec i m.regs }
  | .movqLoad disp, m => { m with regs := m.regs.setRax (load64 m.mem (m.rdi + disp)) }
  | .movqToDb dest, m => { m with regs := m.regs.setDb dest m.regs.rax }
  | .vmovdquLoad dest, m => { m with regs := m.regs.setXmm dest (loadBlock m.mem m.rsi) }
  | .vmovdquStore src, m => { m with mem := storeBlock m.mem m.rdi (m.regs.xmm src) }
  | .vpxorMem src₁ dest, m =>
      { m with regs :=
          m.regs.setXmm dest (Bispe.vpxor (m.regs.xmm src₁) (loadBlock m.mem m.rdx)) }

def runMem (is : List MemInstr) (m : Cpu) : Cpu := is.foldl (fun m i => execMem i m) m

/-! ## The routines -/

/-- `bispe_set_key`. -/
def bispeSetKey : List MemInstr :=
  [.movqLoad 0, .movqToDb 0, .movqLoad 8, .movqToDb 1, .movqLoad 16, .movqToDb 2,
   .movqLoad 24, .movqToDb 3, .reg .xorqRax]

/-- `bispe_encblk_mem`. -/
def bispeEncblkMem : List MemInstr :=
  .vmovdquLoad rstate :: (encryptBlock.map .reg ++ [.vmovdquStore rstate, .reg (.movlRax 0)])

/-- `bispe_decblk_mem`. -/
def bispeDecblkMem : List MemInstr :=
  .vmovdquLoad rstate :: (decryptBlock.map .reg ++ [.vmovdquStore rstate, .reg (.movlRax 0)])

/-- `bispe_encblk_mem_cbc`. -/
def bispeEncblkMemCbc : List MemInstr :=
  .vmovdquLoad rstate :: .vpxorMem rstate rstate ::
    (encryptBlock.map .reg ++ [.vmovdquStore rstate, .reg (.movlRax 0)])

/-- `bispe_decblk_mem_cbc`. -/
def bispeDecblkMemCbc : List MemInstr :=
  .vmovdquLoad rstate :: (decryptBlock.map .reg ++
    [.vpxorMem rstate rstate, .vmovdquStore rstate, .reg (.movlRax 0)])

@[simp] theorem runMem_nil (m : Cpu) : runMem [] m = m := rfl

@[simp] theorem runMem_cons (i : MemInstr) (is : List MemInstr) (m : Cpu) :
    runMem (i :: is) m = runMem is (execMem i m) := rfl

@[simp] theorem runMem_append (is js : List MemInstr) (m : Cpu) :
    runMem (is ++ js) m = runMem js (runMem is m) := List.foldl_append

/-- Instructions without a memory operand work on the registers. -/
@[simp] theorem runMem_reg (is : List Instr) (m : Cpu) :
    runMem (is.map .reg) m = { m with regs := run is m.regs } := by
  induction is generalizing m with
  | nil => rfl
  | cons i is ih => rw [List.map_cons, runMem_cons, ih, execMem, run_cons]

/-! ## Bytes of the registers -/

theorem byteOf_loadBlock (mem : Mem) (p : BitVec 64) (i : Fin 16) :
    Fips197.byteOf (loadBlock mem p) i = mem (p + BitVec.ofNat 64 (i : ℕ)) := by
  have hi : 4 * ((Fin.ofNat 4 ((i : ℕ) / 4) : Fin 4) : ℕ) + ((Fin.ofNat 4 (i : ℕ) : Fin 4) : ℕ) =
      i := by
    simp only [Fin.val_ofNat]
    omega
  rw [Fips197.byteOf, loadBlock, load32, byteAt_ofBytes, BitVec.add_assoc, ← BitVec.ofNat_add, hi]

theorem extractLsb'_load64_lo (mem : Mem) (p : BitVec 64) :
    (load64 mem p).extractLsb' 0 32 = load32 mem p := BitVec.extractLsb'_append_eq_right

theorem extractLsb'_load64_hi (mem : Mem) (p : BitVec 64) :
    (load64 mem p).extractLsb' 32 32 = load32 mem (p + 4) := BitVec.extractLsb'_append_eq_left

/-- The 32 bytes at `p`. -/
def keyAt (mem : Mem) (p : BitVec 64) : Fin 32 → Aes.Byte :=
  fun i => mem (p + BitVec.ofNat 64 (i : ℕ))

theorem keyWords_keyAt (mem : Mem) (p : BitVec 64) (j : Fin 8) :
    Fips197.keyWords (keyAt mem p) j = load32 mem (p + BitVec.ofNat 64 (4 * (j : ℕ))) := by
  rw [Fips197.keyWords, load32]
  congr 1
  funext r
  have hi : ((Fin.ofNat 32 (4 * (j : ℕ) + (r : ℕ)) : Fin 32) : ℕ) = 4 * j + r := by
    simp only [Fin.val_ofNat]
    omega
  rw [keyAt, hi, BitVec.add_assoc, ← BitVec.ofNat_add]

/-- **`bispe_set_key` loads the key**: 32 bytes in their order. -/
theorem bispeSetKey_key (m : Cpu) :
    (runMem bispeSetKey m).regs.key = Fips197.keyWords (keyAt m.mem m.rdi) := by
  funext j
  rw [keyWords_keyAt]
  match j with
  | 0 | 2 | 4 | 6 =>
      simp [bispeSetKey, execMem, exec, Regs.key, Regs.setDb, extractLsb'_load64_lo]
  | 1 | 3 | 5 | 7 =>
      simp [bispeSetKey, execMem, exec, Regs.key, Regs.setDb, extractLsb'_load64_hi,
        BitVec.add_assoc]

/-! ## The cipher on memory -/

theorem encblk_eq (m : Regs) (x : Line) :
    m.cipher.encblk x = (run encryptBlock (m.setXmm rstate x)).xmm rstate := rfl

theorem decblk_eq (m : Regs) (x : Line) :
    m.cipher.decblk x = (run decryptBlock (m.setXmm rstate x)).xmm rstate := rfl

theorem bispeEncblkMem_mem (m : Cpu) :
    (runMem bispeEncblkMem m).mem =
      storeBlock m.mem m.rdi (m.regs.cipher.encblk (loadBlock m.mem m.rsi)) := by
  rw [bispeEncblkMem, runMem_cons, runMem_append, runMem_reg, encblk_eq]
  rfl

theorem bispeDecblkMem_mem (m : Cpu) :
    (runMem bispeDecblkMem m).mem =
      storeBlock m.mem m.rdi (m.regs.cipher.decblk (loadBlock m.mem m.rsi)) := by
  rw [bispeDecblkMem, runMem_cons, runMem_append, runMem_reg, decblk_eq]
  rfl

theorem setXmm_setXmm (m : Regs) (r : Reg) (x y : Line) :
    (m.setXmm r x).setXmm r y = m.setXmm r y := by
  simp [Regs.setXmm]

/-- The chained routine encrypts the block mixed with the one at `rdx`. -/
theorem bispeEncblkMemCbc_mem (m : Cpu) :
    (runMem bispeEncblkMemCbc m).mem = storeBlock m.mem m.rdi
      ((Build.mode (some m.regs.cipher)).link (loadBlock m.mem m.rsi) (loadBlock m.mem m.rdx)) := by
  have hlink (x y : Line) : (Build.mode (some m.regs.cipher)).link x y =
      m.regs.cipher.encblk (Bispe.vpxor x y) := rfl
  rw [bispeEncblkMemCbc, runMem_cons, runMem_cons, runMem_append, runMem_reg, hlink, encblk_eq]
  simp only [execMem, runMem_cons, runMem_nil, setXmm_setXmm, xmm_setXmm_self]

theorem unchain_mem (m : Cpu) :
    (runMem [.vpxorMem rstate rstate, .vmovdquStore rstate, .reg (.movlRax 0)] m).mem =
      storeBlock m.mem m.rdi (Bispe.vpxor (m.regs.xmm rstate) (loadBlock m.mem m.rdx)) := by
  simp only [execMem, runMem_cons, runMem_nil, xmm_setXmm_self]

/-- The chained routine decrypts and removes the block at `rdx`. -/
theorem bispeDecblkMemCbc_mem (m : Cpu) :
    (runMem bispeDecblkMemCbc m).mem = storeBlock m.mem m.rdi
      (Bispe.vpxor (m.regs.cipher.decblk (loadBlock m.mem m.rsi)) (loadBlock m.mem m.rdx)) := by
  rw [bispeDecblkMemCbc, runMem_cons, runMem_append, runMem_reg, unchain_mem, decblk_eq]
  rfl

theorem storeBlock_inside (mem : Mem) (p : BitVec 64) (x : Line) (i : Fin 16) :
    storeBlock mem p x (p + BitVec.ofNat 64 (i : ℕ)) = Fips197.byteOf x i := by
  have hi : (p + BitVec.ofNat 64 (i : ℕ) - p).toNat = i := by
    rw [BitVec.add_comm, BitVec.add_sub_cancel, BitVec.toNat_ofNat]
    omega
  rw [storeBlock, hi, if_pos i.isLt]
  congr 1
  apply Fin.ext
  simp only [Fin.val_ofNat]
  omega

/-- A stored block is loaded again. -/
theorem loadBlock_storeBlock (mem : Mem) (p : BitVec 64) (x : Line) :
    loadBlock (storeBlock mem p x) p = x := by
  rw [← ofState_bytes (loadBlock (storeBlock mem p x) p), ← ofState_bytes x]
  congr 1
  funext c r
  have hb : ∀ y, bytes y c r = Fips197.byteOf y (Fin.ofNat 16 ((r : ℕ) + 4 * (c : ℕ))) :=
    fun y => congrFun (congrFun (Fips197.stateOf_eq y) r) c
  rw [hb, hb, byteOf_loadBlock, storeBlock_inside, ofState_bytes]

/-- What one routine has written is read back by the other one. -/
theorem decblkMem_encblkMem {m m' : Cpu} (hcipher : m'.regs.cipher = m.regs.cipher)
    (hsrc : loadBlock m'.mem m'.rsi = loadBlock (runMem bispeEncblkMem m).mem m.rdi) :
    loadBlock (runMem bispeDecblkMem m').mem m'.rdi = loadBlock m.mem m.rsi := by
  rw [bispeDecblkMem_mem, loadBlock_storeBlock, hcipher, hsrc, bispeEncblkMem_mem,
    loadBlock_storeBlock]
  exact cipher_inverts m.regs _ rfl _

/-- The same for the chained routines, with the same block at `rdx`. -/
theorem decblkMemCbc_encblkMemCbc {m m' : Cpu} (hcipher : m'.regs.cipher = m.regs.cipher)
    (hsrc : loadBlock m'.mem m'.rsi = loadBlock (runMem bispeEncblkMemCbc m).mem m.rdi)
    (hprev : loadBlock m'.mem m'.rdx = loadBlock m.mem m.rdx) :
    loadBlock (runMem bispeDecblkMemCbc m').mem m'.rdi = loadBlock m.mem m.rsi := by
  rw [bispeDecblkMemCbc_mem, loadBlock_storeBlock, hcipher, hsrc, hprev, bispeEncblkMemCbc_mem,
    loadBlock_storeBlock]
  have hdec := cipher_inverts m.regs _ rfl
    (Bispe.vpxor (loadBlock m.mem m.rsi) (loadBlock m.mem m.rdx))
  exact (congrArg (Bispe.vpxor · _) hdec).trans (vpxor_vpxor _ _)

/-- Memory by words, at addresses of 64 bits. -/
def wordsOf (mem : Mem) (a : ℤ) : Word := load32 mem (BitVec.ofInt 64 a)

theorem lineAt_wordsOf (mem : Mem) (a : ℤ) :
    lineAt (wordsOf mem) a = loadBlock mem (BitVec.ofInt 64 a) := by
  funext c
  rw [lineAt, wordsOf, loadBlock, BitVec.ofInt_add]
  rfl

/-- Under the round keys of `key` the routines are the standard's cipher. -/
theorem byteOf_cipher {m : Regs} {key : Fin 32 → Aes.Byte}
    (h : ∀ n < 15, m.rkey n = roundKey (Fips197.keyWords key) n) (x : Line) :
    Fips197.byteOf (m.cipher.encblk x) =
      Fips197.cipher (Fips197.keyExpansion key) (Fips197.byteOf x) := by
  have hinner :
      m.innerKeys = (List.range' 1 (Fips197.Nr - 1)).map (roundKey (Fips197.keyWords key)) :=
    List.map_congr_left fun n hn => h n (by revert n; decide)
  rw [cipher_encblk, ← Fips197.byteOf_encrypt, h 0 (by decide), h 14 (by decide), hinner]
  rfl

/-- **The routines conform to AES-256.**  After `bispe_set_key` on 32 bytes of memory
and `bispe_gen_rkeys`, and whatever the interpreter then does with its own
registers, `load_rkey` reads the 15 round keys of the key expansion, and
`bispe_encblk_mem` writes the encryption of the 16 bytes at `rsi` to the 16 bytes at
`rdi` and nothing else. -/
theorem encblkMem_conforms (m : Cpu) {m' : Cpu}
    (h : Uses (runMem (bispeSetKey ++ bispeGenRkeys.map .reg) m).regs m'.regs) :
    (∀ n < 15, ∀ (dest : Reg) (c r : Fin 4),
      byteAt ((run (loadRkey n dest) m'.regs).xmm dest c) r =
        Fips197.keyExpansion (keyAt m.mem m.rdi) (4 * n + c) r) ∧
    (∀ i : Fin 16, (runMem bispeEncblkMem m').mem (m'.rdi + BitVec.ofNat 64 (i : ℕ)) =
      Fips197.cipher (Fips197.keyExpansion (keyAt m.mem m.rdi))
        (fun j => m'.mem (m'.rsi + BitVec.ofNat 64 (j : ℕ))) i) ∧
    ∀ a, 16 ≤ (a - m'.rdi).toNat → (runMem bispeEncblkMem m').mem a = m'.mem a := by
  have hkeys : ∀ n < 15,
      m'.regs.rkey n = roundKey (Fips197.keyWords (keyAt m.mem m.rdi)) n := by
    intro n hn
    rw [h.rkey hn, runMem_append, runMem_reg, bispeGenRkeys_rkey _ hn, bispeSetKey_key]
  have hinput : Fips197.byteOf (loadBlock m'.mem m'.rsi) =
      fun (j : Fin 16) => m'.mem (m'.rsi + BitVec.ofNat 64 (j : ℕ)) := by
    funext j
    exact byteOf_loadBlock m'.mem m'.rsi j
  refine ⟨?_, ?_, ?_⟩
  · intro n hn dest c r
    rw [run_loadRkey, xmm_setXmm_self, hkeys n hn]
    exact Fips197.byteAt_expanded _ _ r
  · intro i
    rw [bispeEncblkMem_mem, storeBlock_inside, byteOf_cipher hkeys, hinput]
  · intro a ha
    rw [bispeEncblkMem_mem, storeBlock, if_neg (by omega)]

/-- The key `00 01 … 1f` at address 64. -/
def smallCpu : Cpu where
  regs := smallRegs
  rdi := 64
  rsi := 0
  rdx := 0
  mem := fun a => BitVec.ofNat 8 (a.toNat - 64)

/-- The same machine after the key has been loaded and expanded. -/
def keyedCpu : Cpu :=
  { smallCpu with regs := (runMem (bispeSetKey ++ bispeGenRkeys.map .reg) smallCpu).regs }

theorem encblkMem_conforms_small :
    (∀ c r, byteAt ((run (loadRkey 1 rhelp) keyedCpu.regs).xmm rhelp c) r =
      Fips197.keyExpansion (fun i => BitVec.ofNat 8 (i : ℕ)) (4 + c) r) ∧
    ∀ i : Fin 16, (runMem bispeEncblkMem keyedCpu).mem (keyedCpu.rdi + BitVec.ofNat 64 (i : ℕ)) =
      Fips197.cipher (Fips197.keyExpansion fun i => BitVec.ofNat 8 (i : ℕ))
        (fun j => keyedCpu.mem (keyedCpu.rsi + BitVec.ofNat 64 (j : ℕ))) i := by
  have hkey : keyAt smallCpu.mem smallCpu.rdi = fun (i : Fin 32) => BitVec.ofNat 8 (i : ℕ) := by
    funext i
    revert i
    decide
  have h : Uses (runMem (bispeSetKey ++ bispeGenRkeys.map .reg) smallCpu).regs keyedCpu.regs :=
    .refl
  obtain ⟨hkeys, hblock, -⟩ := encblkMem_conforms smallCpu h
  rw [hkey] at hkeys hblock
  exact ⟨hkeys 1 (by decide) rhelp, hblock⟩

end Bispe.Crypto
