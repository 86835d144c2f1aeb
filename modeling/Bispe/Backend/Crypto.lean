import Bispe.Lib.Aes
import Bispe.Backend.Lines

/-!
# The crypto module: AES-256 inside the vector registers

The macros of `bispe_crypto_asm.S`.  The key stays in the debug registers and the
15 round keys in halves of `ymm8` to `ymm15`; no part of either is in memory.  A
macro is the list of instructions it expands to, with the operands in the order
of the source: the destination is the last one.

`vaesenc` and its siblings are the AES instructions of `Bispe.Lib.Aes`.  An
instruction on `xmm` registers clears the upper half of its destination, as every
VEX-encoded one does.

## Main definitions

* `Crypto.Regs` — the debug and vector registers.
* `Crypto.Instr`, `Crypto.run` — the instructions of the module.
* `Crypto.bispeGenRkeys`, `Crypto.bispeEncblk`, `Crypto.bispeDecblk` — the routines.
* `Crypto.Uses` — what happens to the registers while the interpreter runs.
-/

namespace Bispe.Crypto

open Aes Rounds

/-- The number of a vector register. -/
abbrev Reg := Fin 16

/-- The halves of a `ymm` register.  The lower one is the `xmm` register. -/
inductive Half
  | lo
  | hi
  deriving DecidableEq, Repr

/-- The registers the module works on. -/
structure Regs where
  db : Fin 4 → BitVec 64
  rax : BitVec 64
  ymm : Reg → Half → Line

def Regs.xmm (m : Regs) (r : Reg) : Line := m.ymm r .lo

/-- Write an `xmm` register.  The upper half of the `ymm` register is cleared. -/
def Regs.setXmm (m : Regs) (r : Reg) (x : Line) : Regs :=
  { m with ymm := Function.update m.ymm r fun | .lo => x | .hi => fun _ => 0 }

def Regs.setRax (m : Regs) (v : BitVec 64) : Regs := { m with rax := v }

/-- The instructions, with the destination last. -/
inductive Instr
  | movqDb (src : Fin 4)
  | xorqRax
  | movlRax (imm : BitVec 32)
  | vmovqRax (dest : Reg)
  | vpxor (src₂ src₁ dest : Reg)
  | vshufps (imm : Aes.Byte) (src₂ src₁ dest : Reg)
  | vmovdqa (src dest : Reg)
  | vextractf128 (imm : Half) (src dest : Reg)
  | vinsertf128 (imm : Half) (src₂ src₁ dest : Reg)
  | vaesenc (src₂ src₁ dest : Reg)
  | vaesenclast (src₂ src₁ dest : Reg)
  | vaesdec (src₂ src₁ dest : Reg)
  | vaesdeclast (src₂ src₁ dest : Reg)
  | vaesimc (src dest : Reg)
  | vaeskeygenassist (imm : Aes.Byte) (src dest : Reg)
  deriving DecidableEq, Repr

/-- `vshufps`: two dwords of each source, chosen by two bits of `imm` each. -/
def shufps (imm : Aes.Byte) (src₂ src₁ : Line) : Line :=
  let sel (k : ℕ) : Fin 4 := Fin.ofNat 4 (imm.toNat / 4 ^ k)
  ![src₁ (sel 0), src₁ (sel 1), src₂ (sel 2), src₂ (sel 3)]

/-- One instruction. -/
def exec : Instr → Regs → Regs
  | .movqDb src, m => m.setRax (m.db src)
  | .xorqRax, m => m.setRax (m.rax ^^^ m.rax)
  | .movlRax imm, m => m.setRax (imm.setWidth 64)
  | .vmovqRax dest, m =>
      m.setXmm dest ![m.rax.extractLsb' 0 32, m.rax.extractLsb' 32 32, 0, 0]
  | .vpxor src₂ src₁ dest, m => m.setXmm dest (Bispe.vpxor (m.xmm src₁) (m.xmm src₂))
  | .vshufps imm src₂ src₁ dest, m => m.setXmm dest (shufps imm (m.xmm src₂) (m.xmm src₁))
  | .vmovdqa src dest, m => m.setXmm dest (m.xmm src)
  | .vextractf128 imm src dest, m => m.setXmm dest (m.ymm src imm)
  | .vinsertf128 imm src₂ src₁ dest, m =>
      { m with ymm := Function.update m.ymm dest (Function.update (m.ymm src₁) imm (m.xmm src₂)) }
  | .vaesenc src₂ src₁ dest, m => m.setXmm dest (aesenc (m.xmm src₁) (m.xmm src₂))
  | .vaesenclast src₂ src₁ dest, m => m.setXmm dest (aesenclast (m.xmm src₁) (m.xmm src₂))
  | .vaesdec src₂ src₁ dest, m => m.setXmm dest (aesdec (m.xmm src₁) (m.xmm src₂))
  | .vaesdeclast src₂ src₁ dest, m => m.setXmm dest (aesdeclast (m.xmm src₁) (m.xmm src₂))
  | .vaesimc src dest, m => m.setXmm dest (aesimc (m.xmm src))
  | .vaeskeygenassist imm src dest, m => m.setXmm dest (aeskeygenassist imm (m.xmm src))

/-- A straight line of instructions. -/
def run (is : List Instr) (m : Regs) : Regs := is.foldl (fun m i => exec i m) m

/-! ## The macros -/

def rstate : Reg := 0
def rhelp : Reg := 1
def rsrc : Reg := 2
def rdest : Reg := 3

/-- The register of round key `n`: `ymm8` to `ymm15`, then `xmm8` to `xmm14`. -/
def rk (n : ℕ) : Reg := if n ≤ 7 then Fin.ofNat 16 (8 + n) else Fin.ofNat 16 n

/-- The half of it that holds the key. -/
def rkHalf (n : ℕ) : Half := if n ≤ 7 then .hi else .lo

def loadRkey (src : ℕ) (dest : Reg) : List Instr :=
  if src ≤ 7 then [.vextractf128 .hi (rk src) dest] else [.vmovdqa (rk src) dest]

def saveRkey (src : Reg) (dest : ℕ) : List Instr :=
  if dest ≤ 7 then [.vinsertf128 .hi src (rk dest) (rk dest)]
  else [.vinsertf128 .lo src (rk dest) (rk dest)]

/-- Generate the next round key.  `rsrc` and `rdest` change places after the first
run. -/
def keySchedule (r₀ _r₁ r₂ : ℕ) (rcon : Aes.Byte) : List Instr :=
  (if r₀ > 0 then
    [.vpxor rsrc rdest rdest,
     .vpxor rdest rsrc rsrc,
     .vpxor rsrc rdest rdest]
  else []) ++
  [.vpxor rhelp rhelp rhelp,
   .vshufps 0x1f rdest rhelp rhelp,
   .vpxor rhelp rdest rdest,
   .vshufps 0x8c rdest rhelp rhelp,
   .vpxor rhelp rdest rdest,
   .vaeskeygenassist rcon rsrc rhelp,
   if rcon = 0 then .vshufps 0xaa rhelp rhelp rhelp else .vshufps 0xff rhelp rhelp rhelp,
   .vpxor rhelp rdest rdest] ++
  saveRkey rdest r₂

def readKey (r₀ r₁ : Reg) : List Instr :=
  [.movqDb 0, .vmovqRax r₀, .movqDb 1, .vmovqRax rhelp, .vshufps 0x44 rhelp r₀ r₀,
   .movqDb 2, .vmovqRax r₁, .movqDb 3, .vmovqRax rhelp, .vshufps 0x44 rhelp r₁ r₁,
   .xorqRax]

/-- The arguments of the runs of `key_schedule`. -/
def schedules : List (ℕ × ℕ × ℕ × Aes.Byte) :=
  [(0, 1, 2, 0x1), (1, 2, 3, 0x0), (2, 3, 4, 0x2), (3, 4, 5, 0x0), (4, 5, 6, 0x4),
   (5, 6, 7, 0x0), (6, 7, 8, 0x8), (7, 8, 9, 0x0), (8, 9, 10, 0x10), (9, 10, 11, 0x0),
   (10, 11, 12, 0x20), (11, 12, 13, 0x0), (12, 13, 14, 0x40)]

def generateRks : List Instr :=
  readKey rdest rsrc ++ saveRkey rdest 0 ++ saveRkey rsrc 1 ++
  schedules.flatMap fun s => keySchedule s.1 s.2.1 s.2.2.1 s.2.2.2

def doEncRound (rk : ℕ) : List Instr := loadRkey rk rhelp ++ [.vaesenc rhelp rstate rstate]

def encryptBlock : List Instr :=
  loadRkey 0 rhelp ++ [.vpxor rhelp rstate rstate] ++
  [1, 2, 3, 4, 5, 6, 7, 8, 9, 10, 11, 12, 13].flatMap doEncRound ++
  loadRkey 14 rhelp ++ [.vaesenclast rhelp rstate rstate]

def doDecRound (rk : ℕ) : List Instr :=
  loadRkey rk rhelp ++ [.vaesimc rhelp rhelp, .vaesdec rhelp rstate rstate]

def decryptBlock : List Instr :=
  loadRkey 14 rhelp ++ [.vpxor rhelp rstate rstate] ++
  [13, 12, 11, 10, 9, 8, 7, 6, 5, 4, 3, 2, 1].flatMap doDecRound ++
  loadRkey 0 rhelp ++ [.vaesdeclast rhelp rstate rstate]

/-! ## The routines -/

/-- `bispe_gen_rkeys`. -/
def bispeGenRkeys : List Instr := generateRks ++ [.movlRax 0]

/-- `bispe_encblk`: encrypt the block in `rstate`. -/
def bispeEncblk : List Instr := encryptBlock

/-- `bispe_decblk`: decrypt the block in `rstate`. -/
def bispeDecblk : List Instr := decryptBlock

/-! ## The round keys in their places -/

/-- Round key `n`. -/
def Regs.rkey (m : Regs) (n : ℕ) : Line := m.ymm (rk n) (rkHalf n)

/-- The key in the debug registers, in dwords. -/
def Regs.key (m : Regs) : Fin 8 → Word :=
  ![(m.db 0).extractLsb' 0 32, (m.db 0).extractLsb' 32 32,
    (m.db 1).extractLsb' 0 32, (m.db 1).extractLsb' 32 32,
    (m.db 2).extractLsb' 0 32, (m.db 2).extractLsb' 32 32,
    (m.db 3).extractLsb' 0 32, (m.db 3).extractLsb' 32 32]

/-- Put `x` in the place of round key `n`. -/
def Regs.setRkey (m : Regs) (n : ℕ) (x : Line) : Regs :=
  { m with ymm := Function.update m.ymm (rk n) (Function.update (m.ymm (rk n)) (rkHalf n) x) }

/-- The 15 places are apart, and none is in the registers the macros work in. -/
theorem rk_places : ∀ n < 15, 8 ≤ rk n ∧ ∀ k < 15, rk n = rk k → rkHalf n = rkHalf k → n = k := by
  decide

theorem rk_ne_of_lt {r : Reg} (hr : r < 8) {n : ℕ} (hn : n < 15) : rk n ≠ r := by
  rintro rfl
  exact absurd hr (not_lt.mpr (rk_places n hn).1)

@[simp] theorem run_nil (m : Regs) : run [] m = m := rfl

@[simp] theorem run_cons (i : Instr) (is : List Instr) (m : Regs) :
    run (i :: is) m = run is (exec i m) := rfl

@[simp] theorem run_append (is js : List Instr) (m : Regs) :
    run (is ++ js) m = run js (run is m) := List.foldl_append

@[simp] theorem xmm_setXmm_self (m : Regs) (r : Reg) (x : Line) : (m.setXmm r x).xmm r = x := by
  simp [Regs.xmm, Regs.setXmm]

theorem xmm_setXmm_of_ne (m : Regs) {r r' : Reg} (x : Line) (h : r' ≠ r) :
    (m.setXmm r x).xmm r' = m.xmm r' := by
  simp [Regs.xmm, Regs.setXmm, h]

@[simp] theorem db_setXmm (m : Regs) (r : Reg) (x : Line) : (m.setXmm r x).db = m.db := rfl

@[simp] theorem xmm_setRax (m : Regs) (v : BitVec 64) (r : Reg) :
    (m.setRax v).xmm r = m.xmm r := rfl

@[simp] theorem db_setRax (m : Regs) (v : BitVec 64) : (m.setRax v).db = m.db := rfl

@[simp] theorem rax_setRax (m : Regs) (v : BitVec 64) : (m.setRax v).rax = v := rfl

@[simp] theorem rkey_setRax (m : Regs) (v : BitVec 64) (n : ℕ) :
    (m.setRax v).rkey n = m.rkey n := rfl

@[simp] theorem rax_setXmm (m : Regs) (r : Reg) (x : Line) : (m.setXmm r x).rax = m.rax := rfl

theorem rkey_setXmm (m : Regs) {r : Reg} (hr : r < 8) (x : Line) {n : ℕ} (hn : n < 15) :
    (m.setXmm r x).rkey n = m.rkey n := by
  simp [Regs.rkey, Regs.setXmm, rk_ne_of_lt hr hn]

theorem xmm_setRkey (m : Regs) {r : Reg} (hr : r < 8) {n : ℕ} (hn : n < 15) (x : Line) :
    (m.setRkey n x).xmm r = m.xmm r := by
  simp [Regs.xmm, Regs.setRkey, (rk_ne_of_lt hr hn).symm]

theorem rkey_setRkey_self (m : Regs) (n : ℕ) (x : Line) : (m.setRkey n x).rkey n = x := by
  simp [Regs.rkey, Regs.setRkey]

theorem rkey_setRkey_of_ne (m : Regs) {n k : ℕ} (hn : n < 15) (hk : k < 15) (h : k ≠ n)
    (x : Line) : (m.setRkey n x).rkey k = m.rkey k := by
  by_cases hr : rk k = rk n
  · have hh : rkHalf k ≠ rkHalf n := fun hh => h ((rk_places k hk).2 n hn hr hh)
    simp [Regs.rkey, Regs.setRkey, hr, hh]
  · simp [Regs.rkey, Regs.setRkey, hr]

theorem run_loadRkey (m : Regs) (n : ℕ) (r : Reg) :
    run (loadRkey n r) m = m.setXmm r (m.rkey n) := by
  unfold loadRkey Regs.rkey rkHalf
  by_cases h : n ≤ 7
  · simp [h, exec]
  · simp [h, exec, Regs.xmm]

theorem run_saveRkey (m : Regs) (r : Reg) (n : ℕ) :
    run (saveRkey r n) m = m.setRkey n (m.xmm r) := by
  unfold saveRkey Regs.setRkey rkHalf
  by_cases h : n ≤ 7
  · simp [h, exec]
  · simp [h, exec]

/-! ## Encryption and decryption of one block -/

/-- The register an instruction writes to. -/
def Instr.dest : Instr → Option Reg
  | .movqDb _ | .xorqRax | .movlRax _ => none
  | .vmovqRax dest | .vpxor _ _ dest | .vshufps _ _ _ dest | .vmovdqa _ dest
  | .vextractf128 _ _ dest | .vinsertf128 _ _ _ dest | .vaesenc _ _ dest | .vaesenclast _ _ dest
  | .vaesdec _ _ dest | .vaesdeclast _ _ dest | .vaesimc _ dest | .vaeskeygenassist _ _ dest =>
      some dest

/-- The instructions write to the registers `xmm0` to `xmm7` only. -/
def Low (is : List Instr) : Prop := ∀ i ∈ is, ∀ r ∈ i.dest, r < 8

instance (is : List Instr) : Decidable (Low is) := by unfold Low; infer_instance

theorem ymm_exec_of_ne (i : Instr) (m : Regs) {r : Reg} (h : i.dest ≠ some r) :
    (exec i m).ymm r = m.ymm r := by
  cases i with
  | movqDb src => rfl
  | xorqRax => rfl
  | movlRax imm => rfl
  | _ =>
      have hr : r ≠ _ := fun he => h (congrArg some he.symm)
      simp [exec, Regs.setXmm, hr]

theorem ymm_run_of_ne {is : List Instr} {r : Reg} (h : ∀ i ∈ is, i.dest ≠ some r) (m : Regs) :
    (run is m).ymm r = m.ymm r := by
  induction is generalizing m with
  | nil => rfl
  | cons i is ih =>
      rw [run_cons, ih (fun j hj => h j (List.mem_cons_of_mem i hj)),
        ymm_exec_of_ne i m (h i List.mem_cons_self)]

/-- Instructions on the low registers keep the round keys. -/
theorem rkey_run {is : List Instr} (h : Low is) (m : Regs) {n : ℕ} (hn : n < 15) :
    (run is m).rkey n = m.rkey n := by
  have hne : ∀ i ∈ is, i.dest ≠ some (rk n) :=
    fun i hi hd => rk_ne_of_lt (h i hi (rk n) hd) hn rfl
  rw [Regs.rkey, ymm_run_of_ne hne, Regs.rkey]

theorem db_exec (i : Instr) (m : Regs) : (exec i m).db = m.db := by cases i <;> rfl

/-- The module never writes to the debug registers. -/
theorem db_run (is : List Instr) (m : Regs) : (run is m).db = m.db := by
  induction is generalizing m with
  | nil => rfl
  | cons i is ih => rw [run_cons, ih, db_exec]

theorem low_doEncRound (n : ℕ) : Low (doEncRound n) := by
  by_cases h : n ≤ 7 <;> simp [Low, doEncRound, loadRkey, h, Instr.dest, rhelp, rstate]

theorem low_doDecRound (n : ℕ) : Low (doDecRound n) := by
  by_cases h : n ≤ 7 <;> simp [Low, doDecRound, loadRkey, h, Instr.dest, rhelp, rstate]

theorem low_bispeEncblk : Low bispeEncblk := by decide

theorem low_bispeDecblk : Low bispeDecblk := by decide

theorem doEncRound_xmm (n : ℕ) (m : Regs) :
    (run (doEncRound n) m).xmm rstate = layers.round (m.xmm rstate) (m.rkey n) := by
  have hne : rstate ≠ rhelp := by decide
  simp [doEncRound, run_loadRkey, exec, aesenc_eq_round, xmm_setXmm_of_ne _ _ hne]

theorem doDecRound_xmm (n : ℕ) (m : Regs) :
    (run (doDecRound n) m).xmm rstate =
      layers.invRound (m.xmm rstate) (layers.invMix (m.rkey n)) := by
  have hne : rstate ≠ rhelp := by decide
  simp [doDecRound, run_loadRkey, exec, aesdec_eq_invRound, xmm_setXmm_of_ne _ _ hne]
  rfl

/-- The inner rounds use the round keys they name. -/
theorem encRounds_xmm (ns : List ℕ) (hns : ∀ n ∈ ns, n < 15) (m : Regs) :
    (run (ns.flatMap doEncRound) m).xmm rstate =
      layers.rounds (ns.map m.rkey) (m.xmm rstate) := by
  induction ns generalizing m with
  | nil => rfl
  | cons n ns ih =>
      have hkeys : ns.map (run (doEncRound n) m).rkey = ns.map m.rkey :=
        List.map_congr_left fun k hk =>
          rkey_run (low_doEncRound n) m (hns k (List.mem_cons_of_mem n hk))
      rw [List.flatMap_cons, run_append, ih fun k hk => hns k (List.mem_cons_of_mem n hk), hkeys,
        doEncRound_xmm, List.map_cons, Layers.rounds_cons]

theorem decRounds_xmm (ns : List ℕ) (hns : ∀ n ∈ ns, n < 15) (m : Regs) :
    (run (ns.flatMap doDecRound) m).xmm rstate =
      layers.invRounds (ns.map m.rkey) (m.xmm rstate) := by
  induction ns generalizing m with
  | nil => rfl
  | cons n ns ih =>
      have hkeys : ns.map (run (doDecRound n) m).rkey = ns.map m.rkey :=
        List.map_congr_left fun k hk =>
          rkey_run (low_doDecRound n) m (hns k (List.mem_cons_of_mem n hk))
      rw [List.flatMap_cons, run_append, ih fun k hk => hns k (List.mem_cons_of_mem n hk), hkeys,
        doDecRound_xmm, List.map_cons, Layers.invRounds_cons]

/-- Adding the first key. -/
theorem whiten_xmm (n : ℕ) (m : Regs) :
    (run (loadRkey n rhelp ++ [.vpxor rhelp rstate rstate]) m).xmm rstate =
      layers.add (m.xmm rstate) (m.rkey n) := by
  have hne : rstate ≠ rhelp := by decide
  simp only [run_append, run_cons, run_nil, run_loadRkey, exec, xmm_setXmm_self,
    xmm_setXmm_of_ne _ _ hne]
  rfl

theorem encLast_xmm (n : ℕ) (m : Regs) :
    (run (loadRkey n rhelp ++ [.vaesenclast rhelp rstate rstate]) m).xmm rstate =
      layers.add (layers.sub (m.xmm rstate)) (m.rkey n) := by
  have hne : rstate ≠ rhelp := by decide
  simp only [run_append, run_cons, run_nil, run_loadRkey, exec, xmm_setXmm_self,
    xmm_setXmm_of_ne _ _ hne]
  rfl

theorem decLast_xmm (n : ℕ) (m : Regs) :
    (run (loadRkey n rhelp ++ [.vaesdeclast rhelp rstate rstate]) m).xmm rstate =
      layers.add (layers.invSub (m.xmm rstate)) (m.rkey n) := by
  have hne : rstate ≠ rhelp := by decide
  simp only [run_append, run_cons, run_nil, run_loadRkey, exec, xmm_setXmm_self,
    xmm_setXmm_of_ne _ _ hne]
  rfl

/-- The keys of the inner rounds. -/
def Regs.innerKeys (m : Regs) : List Line := [1, 2, 3, 4, 5, 6, 7, 8, 9, 10, 11, 12, 13].map m.rkey

/-- `bispe_encblk` is the round cipher under the keys in the registers. -/
theorem bispeEncblk_xmm (m : Regs) :
    (run bispeEncblk m).xmm rstate =
      layers.encrypt (m.rkey 0) m.innerKeys (m.rkey 14) (m.xmm rstate) := by
  have hfirst : Low (loadRkey 0 rhelp ++ [.vpxor rhelp rstate rstate]) := by decide
  have hbody : Low (loadRkey 0 rhelp ++ [.vpxor rhelp rstate rstate] ++
      [1, 2, 3, 4, 5, 6, 7, 8, 9, 10, 11, 12, 13].flatMap doEncRound) := by decide
  have hlast := rkey_run hbody m (n := 14) (by decide)
  have hlt : ∀ n ∈ [1, 2, 3, 4, 5, 6, 7, 8, 9, 10, 11, 12, 13], n < 15 := by decide
  have hinner : [1, 2, 3, 4, 5, 6, 7, 8, 9, 10, 11, 12, 13].map
      (run (loadRkey 0 rhelp ++ [.vpxor rhelp rstate rstate]) m).rkey = m.innerKeys :=
    List.map_congr_left fun n hn => rkey_run hfirst m (hlt n hn)
  rw [bispeEncblk, encryptBlock, List.append_assoc, run_append, encLast_xmm, hlast, run_append,
    encRounds_xmm _ hlt, hinner, whiten_xmm, Layers.encrypt]

/-- `bispe_decblk` is its equivalent inverse. -/
theorem bispeDecblk_xmm (m : Regs) :
    (run bispeDecblk m).xmm rstate =
      layers.decrypt (m.rkey 0) m.innerKeys (m.rkey 14) (m.xmm rstate) := by
  have hfirst : Low (loadRkey 14 rhelp ++ [.vpxor rhelp rstate rstate]) := by decide
  have hbody : Low (loadRkey 14 rhelp ++ [.vpxor rhelp rstate rstate] ++
      [13, 12, 11, 10, 9, 8, 7, 6, 5, 4, 3, 2, 1].flatMap doDecRound) := by decide
  have hlast := rkey_run hbody m (n := 0) (by decide)
  have hlt : ∀ n ∈ [13, 12, 11, 10, 9, 8, 7, 6, 5, 4, 3, 2, 1], n < 15 := by decide
  have hinner : [13, 12, 11, 10, 9, 8, 7, 6, 5, 4, 3, 2, 1].map
      (run (loadRkey 14 rhelp ++ [.vpxor rhelp rstate rstate]) m).rkey = m.innerKeys.reverse :=
    List.map_congr_left fun n hn => rkey_run hfirst m (hlt n hn)
  rw [bispeDecblk, decryptBlock, List.append_assoc, run_append, decLast_xmm, hlast, run_append,
    decRounds_xmm _ hlt, hinner, whiten_xmm, Layers.decrypt]

/-! ## The key schedule -/

theorem shufps_44 (x y : Line) : shufps 0x44 x y = ![y 0, y 1, x 0, x 1] := rfl

theorem shufps_1f (x y : Line) : shufps 0x1f x y = ![y 3, y 3, x 1, x 0] := rfl

theorem shufps_8c (x y : Line) : shufps 0x8c x y = ![y 0, y 3, x 0, x 2] := rfl

theorem shufps_aa (x : Line) : shufps 0xaa x x = fun _ => x 2 := by
  funext c
  match c with
  | 0 | 1 | 2 | 3 => rfl

theorem shufps_ff (x : Line) : shufps 0xff x x = fun _ => x 3 := by
  funext c
  match c with
  | 0 | 1 | 2 | 3 => rfl

theorem rdest_ne_rsrc : rdest ≠ rsrc := by decide

theorem rdest_ne_rhelp : rdest ≠ rhelp := by decide

theorem rsrc_ne_rhelp : rsrc ≠ rhelp := by decide

/-- What the registers of the key schedule hold after a write to one of them. -/
theorem xmm_setXmm (m : Regs) (r r' : Reg) (x : Line) :
    (m.setXmm r x).xmm r' = if r' = r then x else m.xmm r' := by
  by_cases h : r' = r
  · rw [if_pos h, h, xmm_setXmm_self]
  · rw [if_neg h, xmm_setXmm_of_ne _ _ h]

/-- Two debug registers into one `xmm` register. -/
def readPair (a b : Fin 4) (r : Reg) : List Instr :=
  [.movqDb a, .vmovqRax r, .movqDb b, .vmovqRax rhelp, .vshufps 0x44 rhelp r r]

theorem readPair_xmm (a b : Fin 4) {r : Reg} (hr : r ≠ rhelp) (m : Regs) :
    (run (readPair a b r) m).xmm r =
      ![(m.db a).extractLsb' 0 32, (m.db a).extractLsb' 32 32,
        (m.db b).extractLsb' 0 32, (m.db b).extractLsb' 32 32] := by
  simp only [readPair, run_cons, run_nil, exec, xmm_setXmm, xmm_setRax, db_setXmm, db_setRax,
    rax_setRax, hr, hr.symm, if_true, if_false, shufps_44]
  rfl

theorem readKey_eq (r₀ r₁ : Reg) :
    readKey r₀ r₁ = readPair 0 1 r₀ ++ (readPair 2 3 r₁ ++ [.xorqRax]) := rfl

/-- The first two round keys are the key itself. -/
theorem readKey_xmm (m : Regs) :
    (run (readKey rdest rsrc) m).xmm rdest = roundKey m.key 0 ∧
      (run (readKey rdest rsrc) m).xmm rsrc = roundKey m.key 1 := by
  have hkeep : ∀ i ∈ readPair 2 3 rsrc ++ [.xorqRax], i.dest ≠ some rdest := by decide
  constructor
  · rw [readKey_eq, run_append, Regs.xmm, ymm_run_of_ne hkeep, ← Regs.xmm,
      readPair_xmm 0 1 rdest_ne_rhelp]
    funext c
    match c with
    | 0 | 1 | 2 | 3 => simp [roundKey, expanded, Regs.key]
  · rw [readKey_eq, run_append, run_append, run_cons, run_nil, exec, xmm_setRax,
      readPair_xmm 2 3 rsrc_ne_rhelp, db_run]
    funext c
    match c with
    | 0 | 1 | 2 | 3 => simp [roundKey, expanded, Regs.key]

/-- The exchange of `rsrc` and `rdest`. -/
def exchange : List Instr :=
  [.vpxor rsrc rdest rdest, .vpxor rdest rsrc rsrc, .vpxor rsrc rdest rdest]

theorem exchange_xmm (m : Regs) :
    (run exchange m).xmm rdest = m.xmm rsrc ∧ (run exchange m).xmm rsrc = m.xmm rdest := by
  have hne : rsrc ≠ rdest := by decide
  have hcancel (a b : Word) : a ^^^ b ^^^ (b ^^^ (a ^^^ b)) = b := by
    rw [BitVec.xor_comm b, ← BitVec.xor_assoc, BitVec.xor_self, BitVec.zero_xor]
  have hcancel' (a b : Word) : b ^^^ (a ^^^ b) = a := by
    rw [BitVec.xor_comm b, BitVec.xor_assoc, BitVec.xor_self, BitVec.xor_zero]
  simp only [exchange, run_cons, run_nil, exec, xmm_setXmm_self, xmm_setXmm_of_ne _ _ hne,
    xmm_setXmm_of_ne _ _ hne.symm]
  constructor
  · funext c
    exact hcancel ..
  · funext c
    exact hcancel' ..

/-- The next round key in `rdest`. -/
def advance (rcon : Aes.Byte) : List Instr :=
  [.vpxor rhelp rhelp rhelp,
   .vshufps 0x1f rdest rhelp rhelp,
   .vpxor rhelp rdest rdest,
   .vshufps 0x8c rdest rhelp rhelp,
   .vpxor rhelp rdest rdest,
   .vaeskeygenassist rcon rsrc rhelp,
   if rcon = 0 then .vshufps 0xaa rhelp rhelp rhelp else .vshufps 0xff rhelp rhelp rhelp,
   .vpxor rhelp rdest rdest]

theorem advance_eq (rcon : Aes.Byte) : advance rcon =
    [.vpxor rhelp rhelp rhelp, .vshufps 0x1f rdest rhelp rhelp, .vpxor rhelp rdest rdest,
     .vshufps 0x8c rdest rhelp rhelp, .vpxor rhelp rdest rdest, .vaeskeygenassist rcon rsrc rhelp,
     .vshufps (if rcon = 0 then 0xaa else 0xff) rhelp rhelp rhelp, .vpxor rhelp rdest rdest] := by
  by_cases h : rcon = 0
  · rw [advance, if_pos h, if_pos h]
  · rw [advance, if_neg h, if_neg h]

theorem keySchedule_eq (r₀ r₁ r₂ : ℕ) (rcon : Aes.Byte) :
    keySchedule r₀ r₁ r₂ rcon =
      (if r₀ > 0 then exchange else []) ++ advance rcon ++ saveRkey rdest r₂ := rfl

/-- The word `advance` adds to every word: from the dword of `vaeskeygenassist`
that `vshufps` spreads. -/
def assist (rcon : Aes.Byte) (x : Line) : Word :=
  if rcon = 0 then aeskeygenassist rcon x 2 else aeskeygenassist rcon x 3

theorem vpxor_self (x : Line) : Bispe.vpxor x x = fun _ => 0 := by
  funext c
  exact BitVec.xor_self

/-- Every word of the new `rdest` adds up the words below it. -/
theorem advance_xmm (rcon : Aes.Byte) (m : Regs) :
    (run (advance rcon) m).xmm rsrc = m.xmm rsrc ∧
      (run (advance rcon) m).xmm rdest 0 = m.xmm rdest 0 ^^^ assist rcon (m.xmm rsrc) ∧
      ∀ c : Fin 3, (run (advance rcon) m).xmm rdest c.succ =
        m.xmm rdest c.succ ^^^ (run (advance rcon) m).xmm rdest c.castSucc := by
  have hspread : shufps (if rcon = 0 then 0xaa else 0xff) (aeskeygenassist rcon (m.xmm rsrc))
      (aeskeygenassist rcon (m.xmm rsrc)) = fun _ => assist rcon (m.xmm rsrc) := by
    by_cases h : rcon = 0
    · simp only [h, if_true, shufps_aa, assist]
    · simp only [h, if_false, shufps_ff, assist]
  rw [advance_eq]
  simp only [run_cons, run_nil, exec, xmm_setXmm, rdest_ne_rhelp, rdest_ne_rhelp.symm,
    rdest_ne_rsrc.symm, rsrc_ne_rhelp, if_true, if_false, vpxor_self, shufps_1f, shufps_8c, hspread]
  refine ⟨trivial, ?_, fun c => ?_⟩
  · simp [Bispe.vpxor]
  · have hcases : ∀ c : Fin 3, c = 0 ∨ c = 1 ∨ c = 2 := by decide
    rcases hcases c with rfl | rfl | rfl
    all_goals
      simp [Bispe.vpxor]
      ac_rfl

/-- The round constant of the run that makes round key `n + 2`. -/
def rconOf (n : ℕ) : Aes.Byte := if n % 2 = 0 then rcon (n / 2 + 1) else 0

theorem schedules_eq : schedules = (List.range 13).map fun n => (n, n + 1, n + 2, rconOf n) := by
  decide

theorem rconOf_ne_zero : ∀ n < 13, n % 2 = 0 → rconOf n ≠ 0 := by decide

/-- The word added by the key schedule is the one of the key expansion. -/
theorem assist_eq_temp {n : ℕ} (hn : n < 13) (x : Line) :
    assist (rconOf n) x = temp (4 * n + 8) (x 3) := by
  by_cases h : n % 2 = 0
  · have h8 : (4 * n + 8) % 8 = 0 := by omega
    have hj : (4 * n + 8) / 8 = n / 2 + 1 := by omega
    rw [assist, if_neg (rconOf_ne_zero n hn h), temp, if_pos h8, hj, subWord_rotWord, rconOf,
      if_pos h]
    rfl
  · have h8 : (4 * n + 8) % 8 ≠ 0 := by omega
    have h4 : (4 * n + 8) % 8 = 4 := by omega
    rw [assist, rconOf, if_neg h, if_pos rfl, temp, if_neg h8, if_pos h4]
    rfl

/-- `advance` makes the next round key of the expansion. -/
theorem advance_roundKey (key : Fin 8 → Word) {n : ℕ} (hn : n < 13) {m : Regs}
    (hd : m.xmm rdest = roundKey key n) (hs : m.xmm rsrc = roundKey key (n + 1)) :
    (run (advance (rconOf n)) m).xmm rdest = roundKey key (n + 2) := by
  obtain ⟨-, hzero, hsucc⟩ := advance_xmm (rconOf n) m
  have h0 : (run (advance (rconOf n)) m).xmm rdest 0 = roundKey key (n + 2) 0 := by
    rw [hzero, hd, hs, assist_eq_temp hn, roundKey_zero]
  have hstep (c : Fin 3) (h : (run (advance (rconOf n)) m).xmm rdest c.castSucc =
      roundKey key (n + 2) c.castSucc) :
      (run (advance (rconOf n)) m).xmm rdest c.succ = roundKey key (n + 2) c.succ := by
    rw [hsucc, h, hd, roundKey_succ]
  funext c
  match c with
  | 0 => exact h0
  | 1 => exact hstep 0 h0
  | 2 => exact hstep 1 (hstep 0 h0)
  | 3 => exact hstep 2 (hstep 1 (hstep 0 h0))

theorem low_exchange : Low exchange := by decide

theorem low_advance (rcon : Aes.Byte) : Low (advance rcon) := by
  rw [advance_eq]
  simp [Low, Instr.dest, rhelp, rdest]

/-- The state after `n` runs of `key_schedule`: the round keys so far are in
place, and the last two are in `rsrc` and `rdest`. -/
structure Scheduled (key : Fin 8 → Word) (n : ℕ) (m : Regs) : Prop where
  keys : ∀ k < n + 2, m.rkey k = roundKey key k
  first : n = 0 → m.xmm rdest = roundKey key 0 ∧ m.xmm rsrc = roundKey key 1
  later : 0 < n → m.xmm rdest = roundKey key (n + 1) ∧ m.xmm rsrc = roundKey key n

/-- After the exchange `rdest` holds the older one of the two keys. -/
theorem Scheduled.pair {key : Fin 8 → Word} {n : ℕ} {m : Regs} (h : Scheduled key n m) :
    (run (if n > 0 then exchange else []) m).xmm rdest = roundKey key n ∧
      (run (if n > 0 then exchange else []) m).xmm rsrc = roundKey key (n + 1) := by
  by_cases hn : n > 0
  · rw [if_pos hn, (exchange_xmm m).1, (exchange_xmm m).2]
    exact (h.later hn).symm
  · obtain rfl : n = 0 := by omega
    exact h.first rfl

theorem low_pair (n : ℕ) : Low (if n > 0 then exchange else []) := by
  by_cases hn : n > 0
  · rw [if_pos hn]
    exact low_exchange
  · rw [if_neg hn]
    decide

/-- One run of `key_schedule`. -/
theorem Scheduled.step {key : Fin 8 → Word} {n : ℕ} {m : Regs} (h : Scheduled key n m)
    (hn : n < 13) : Scheduled key (n + 1) (run (keySchedule n (n + 1) (n + 2) (rconOf n)) m) := by
  rw [keySchedule_eq, run_append, run_append, run_saveRkey]
  have hpair := h.pair
  have hkeys (k : ℕ) (hk : k < n + 2) :
      (run (if n > 0 then exchange else []) m).rkey k = roundKey key k := by
    rw [rkey_run (low_pair n) m (by omega), h.keys k hk]
  generalize run (if n > 0 then exchange else []) m = m₁ at hpair hkeys
  have hdest := advance_roundKey key hn hpair.1 hpair.2
  have hsrc := (advance_xmm (rconOf n) m₁).1.trans hpair.2
  constructor
  · intro k hk
    by_cases hk' : k = n + 2
    · rw [hk', rkey_setRkey_self, hdest]
    · rw [rkey_setRkey_of_ne _ (by omega) (by omega) hk', rkey_run (low_advance _) m₁ (by omega),
        hkeys k (by omega)]
  · intro h0
    omega
  · intro _
    rw [xmm_setRkey _ (by decide) (by omega), xmm_setRkey _ (by decide) (by omega)]
    exact ⟨hdest, hsrc⟩

theorem schedules_scheduled {key : Fin 8 → Word} {m : Regs} (h : Scheduled key 0 m) (n : ℕ)
    (hn : n ≤ 13) :
    Scheduled key n (run (((List.range n).map fun n => (n, n + 1, n + 2, rconOf n)).flatMap
      fun s => keySchedule s.1 s.2.1 s.2.2.1 s.2.2.2) m) := by
  induction n with
  | zero => exact h
  | succ n ih =>
      rw [List.range_succ, List.map_append, List.flatMap_append, run_append]
      simpa using (ih (by omega)).step (by omega)

/-- **`bispe_gen_rkeys` expands the key**: the 15 round keys of AES-256 are in
their places. -/
theorem bispeGenRkeys_rkey (m : Regs) {n : ℕ} (hn : n < 15) :
    (run bispeGenRkeys m).rkey n = roundKey m.key n := by
  obtain ⟨hdest, hsrc⟩ := readKey_xmm m
  have h :
      Scheduled m.key 0 (run (readKey rdest rsrc ++ saveRkey rdest 0 ++ saveRkey rsrc 1) m) := by
    have hd (x y : Line) : (((run (readKey rdest rsrc) m).setRkey 0 x).setRkey 1 y).xmm rdest =
        roundKey m.key 0 := by
      rw [xmm_setRkey _ (by decide) (by decide), xmm_setRkey _ (by decide) (by decide), hdest]
    have hs (x : Line) :
        ((run (readKey rdest rsrc) m).setRkey 0 x).xmm rsrc = roundKey m.key 1 := by
      rw [xmm_setRkey _ (by decide) (by decide), hsrc]
    rw [run_append, run_append, run_saveRkey, run_saveRkey]
    constructor
    · intro k hk
      obtain rfl | rfl : k = 0 ∨ k = 1 := by omega
      · rw [rkey_setRkey_of_ne _ (by decide) (by decide) (by decide), rkey_setRkey_self, hdest]
      · rw [rkey_setRkey_self, hs]
    · intro _
      constructor
      · exact hd ..
      · rw [xmm_setRkey _ (by decide) (by decide), hs]
    · intro h0
      omega
  have h13 := (schedules_scheduled h 13 le_rfl).keys n hn
  rw [← schedules_eq] at h13
  rw [bispeGenRkeys, run_append, run_cons, run_nil, exec, rkey_setRax, generateRks, run_append, h13]

/-! ## The cipher of the interpreter -/

/-- The two routines as operations on the block in `rstate`. -/
def Regs.cipher (m : Regs) : Cipher where
  encblk x := (run bispeEncblk (m.setXmm rstate x)).xmm rstate
  decblk x := (run bispeDecblk (m.setXmm rstate x)).xmm rstate

theorem innerKeys_congr {m m' : Regs} (h : ∀ n < 15, m'.rkey n = m.rkey n) :
    m'.innerKeys = m.innerKeys := by
  have hlt : ∀ n ∈ [1, 2, 3, 4, 5, 6, 7, 8, 9, 10, 11, 12, 13], n < 15 := by decide
  exact List.map_congr_left fun n hn => h n (hlt n hn)

theorem cipher_encblk (m : Regs) (x : Line) :
    m.cipher.encblk x = layers.encrypt (m.rkey 0) m.innerKeys (m.rkey 14) x := by
  have h (n : ℕ) (hn : n < 15) : (m.setXmm rstate x).rkey n = m.rkey n :=
    rkey_setXmm m (by decide) x hn
  change (run bispeEncblk (m.setXmm rstate x)).xmm rstate = _
  rw [bispeEncblk_xmm, xmm_setXmm_self, h 0 (by decide), h 14 (by decide),
    innerKeys_congr h]

theorem cipher_decblk (m : Regs) (x : Line) :
    m.cipher.decblk x = layers.decrypt (m.rkey 0) m.innerKeys (m.rkey 14) x := by
  have h (n : ℕ) (hn : n < 15) : (m.setXmm rstate x).rkey n = m.rkey n :=
    rkey_setXmm m (by decide) x hn
  change (run bispeDecblk (m.setXmm rstate x)).xmm rstate = _
  rw [bispeDecblk_xmm, xmm_setXmm_self, h 0 (by decide), h 14 (by decide),
    innerKeys_congr h]

/-- The routines depend on the round keys only. -/
theorem cipher_congr {m m' : Regs} (h : ∀ n < 15, m'.rkey n = m.rkey n) : m'.cipher = m.cipher := by
  have henc : m'.cipher.encblk = m.cipher.encblk := by
    funext x
    rw [cipher_encblk, cipher_encblk, h 0 (by decide), h 14 (by decide), innerKeys_congr h]
  have hdec : m'.cipher.decblk = m.cipher.decblk := by
    funext x
    rw [cipher_decblk, cipher_decblk, h 0 (by decide), h 14 (by decide), innerKeys_congr h]
  cases hm : m.cipher
  cases hm' : m'.cipher
  simp_all

/-- A build with this cipher meets what the interpreter expects of its cipher,
whatever the round keys are. -/
theorem cipher_inverts (m : Regs) : Build.Inverts (some m.cipher) := by
  rintro c ⟨rfl⟩ x
  rw [cipher_encblk, cipher_decblk, Layers.decrypt_encrypt layers_lawful]

/-- The registers after any number of writes to the line registers `xmm0` to
`xmm6`, writes to `rax` and calls of the two routines, in any order. -/
inductive Uses (m : Regs) : Regs → Prop
  | refl : Uses m m
  | line {m' : Regs} (r : Reg) (hr : r ≤ 6) (x : Line) : Uses m m' → Uses m (m'.setXmm r x)
  | rax {m' : Regs} (v : BitVec 64) : Uses m m' → Uses m (m'.setRax v)
  | encblk {m' : Regs} : Uses m m' → Uses m (run bispeEncblk m')
  | decblk {m' : Regs} : Uses m m' → Uses m (run bispeDecblk m')

/-- No use of the registers changes a round key. -/
theorem Uses.rkey {m m' : Regs} (h : Uses m m') {n : ℕ} (hn : n < 15) :
    m'.rkey n = m.rkey n := by
  induction h with
  | refl => rfl
  | line r hr x _ ih => rw [rkey_setXmm _ (lt_of_le_of_lt hr (by decide)) x hn, ih]
  | rax v _ ih => rw [rkey_setRax, ih]
  | encblk _ ih => rw [rkey_run low_bispeEncblk _ hn, ih]
  | decblk _ ih => rw [rkey_run low_bispeDecblk _ hn, ih]

/-- **Decryption inverts encryption.**  After `bispe_gen_rkeys` the 15 round keys
of AES-256 are in the upper halves of `ymm8` to `ymm15` and the lower halves of
`ymm8` to `ymm14`, they stay there whatever the interpreter does with its own
registers, and the two routines, called at any two moments, undo each other. -/
theorem decblk_inverts_encblk (m : Regs) {m₁ m₂ : Regs} (h₁ : Uses (run bispeGenRkeys m) m₁)
    (h₂ : Uses (run bispeGenRkeys m) m₂) :
    (∀ n < 8, m₁.ymm (Fin.ofNat 16 (8 + n)) .hi = roundKey m.key n) ∧
      (∀ n, 8 ≤ n → n < 15 → m₁.ymm (Fin.ofNat 16 n) .lo = roundKey m.key n) ∧
      (∀ x, m₂.cipher.decblk (m₁.cipher.encblk x) = x) ∧
      ∀ x, m₂.cipher.encblk (m₁.cipher.decblk x) = x := by
  have hkey (n : ℕ) (hn : n < 15) : m₁.ymm (rk n) (rkHalf n) = roundKey m.key n :=
    (h₁.rkey hn).trans (bispeGenRkeys_rkey m hn)
  have hsame : m₂.cipher = m₁.cipher :=
    cipher_congr fun n hn => (h₂.rkey hn).trans (h₁.rkey hn).symm
  refine ⟨fun n hn => ?_, fun n hn hn' => ?_, fun x => ?_, fun x => ?_⟩
  · have h := hkey n (by omega)
    rwa [rk, rkHalf, if_pos (by omega), if_pos (by omega)] at h
  · have h := hkey n hn'
    rwa [rk, rkHalf, if_neg (by omega), if_neg (by omega)] at h
  · rw [hsame, cipher_encblk, cipher_decblk, Layers.decrypt_encrypt layers_lawful]
  · rw [hsame, cipher_encblk, cipher_decblk, Layers.encrypt_decrypt layers_lawful]

/-- Registers with the key `00 01 … 1f`. -/
def smallRegs : Regs where
  db := ![0x0706050403020100, 0x0f0e0d0c0b0a0908, 0x1716151413121110, 0x1f1e1d1c1b1a1918]
  rax := 0
  ymm := fun _ _ _ => 0

theorem decblk_inverts_encblk_small :
    ((run bispeEncblk (run bispeGenRkeys smallRegs)).setXmm 5 ![1, 2, 3, 4]).cipher.decblk
      ((run bispeGenRkeys smallRegs).cipher.encblk ![5, 6, 7, 8]) = ![5, 6, 7, 8] := by
  have hgen : Uses (run bispeGenRkeys smallRegs) (run bispeGenRkeys smallRegs) := .refl
  have huse := Uses.line 5 (by decide) ![1, 2, 3, 4] (.encblk hgen)
  exact (decblk_inverts_encblk smallRegs hgen huse).2.2.1 _

end Bispe.Crypto
