import Bispe.Frontend.Password
import Bispe.Lib.Fill
import Bispe.Lib.Sha256
import Mathlib.Data.List.GetD
import Mathlib.Tactic.IntervalCases

/-!
# `bispe_sha256` and its work buffers

`bispe_sha256` of `bispe_sha.c` on explicit memory: the chunk and the message
schedule are local arrays with arbitrary contents at the start, and the two calls of
`memset` at the end write the first 64 bytes of each.

## Main definitions

* `Sha.Work` — the two arrays.
* `Sha.buildChunk`, `Sha.buildW` — the loops that fill them.
* `bispeSha256Work` — the digest and the arrays when the function returns.
-/

namespace Bispe

open Fill

namespace Sha

/-- The local arrays `chunk` and `w`. -/
structure Work where
  chunk : Vector Byte 64
  w : Vector Word 64
  deriving DecidableEq

/-- Pre-processing: build `chunk`. -/
def buildChunk (message : List Byte) (msglen : ℕ) (chunk : Vector Byte 64) : Vector Byte 64 :=
  let chunk := fill (fun _ i => message.getD i 0) 0 msglen chunk
  let chunk := chunk.setIfInBounds msglen 0x80
  let i := msglen + 1
  let chunk := fill (fun _ _ => 0) i (62 - i) chunk
  let i := max i 62
  fill (fun _ i => BitVec.ofNat 8 ((msglen * 8) >>> ((63 - i) * 8))) i (64 - i) chunk

/-- The byte of `chunk` at `i`, as an operand of a shift. -/
def chunkAt (chunk : Vector Byte 64) (i : ℕ) : Word := (chunk[i]?.getD 0).setWidth 32

def wAt (w : Vector Word 64) (i : ℕ) : Word := w[i]?.getD 0

/-- Dword `i` of the chunk. -/
def chunkWord (chunk : Vector Byte 64) (i : ℕ) : Word :=
  chunkAt chunk (i * 4 + 0) <<< 24 ||| chunkAt chunk (i * 4 + 1) <<< 16 |||
    chunkAt chunk (i * 4 + 2) <<< 8 ||| chunkAt chunk (i * 4 + 3)

/-- Dword `i` from the dwords before it. -/
def nextWord (w : Vector Word 64) (i : ℕ) : Word :=
  wAt w (i - 16) + s0 (wAt w (i - 15)) + wAt w (i - 7) + s1 (wAt w (i - 2))

/-- Build `w`: extend 16 dwords to 64 dwords. -/
def buildW (chunk : Vector Byte 64) (w : Vector Word 64) : Vector Word 64 :=
  fill nextWord 16 48 (fill (fun _ => chunkWord chunk) 0 16 w)

/-- `memset(chunk, 0, n)`. -/
def memsetChunk (n : ℕ) (chunk : Vector Byte 64) : Vector Byte 64 := fill (fun _ _ => 0) 0 n chunk

/-- `memset(w, 0, n)`: `n` is in bytes, a multiple of four. -/
def memsetW (n : ℕ) (w : Vector Word 64) : Vector Word 64 := fill (fun _ _ => 0) 0 (n / 4) w

/-- The digest from the variables after the main loop. -/
def finish (s : ShaState) : List Byte :=
  let i := initialHash
  [i.a + s.a, i.b + s.b, i.c + s.c, i.d + s.d, i.e + s.e, i.f + s.f, i.g + s.g, i.h + s.h].flatMap
    fun x => storeWord (endian x)

end Sha

open Sha in
/-- `bispe_sha256`, from any contents of its arrays. -/
def bispeSha256Work (message : List Byte) (msglen : ℕ) (work : Work) : List Byte × Work :=
  let msglen := if msglen > 53 then 53 else msglen
  let chunk := buildChunk message msglen work.chunk
  let w := buildW chunk work.w
  let s := (List.range 64).foldl (shaRound w.toList) initialHash
  (finish s, ⟨memsetChunk 64 chunk, memsetW 64 w⟩)

namespace Sha

/-! ## The chunk -/

section Chunk
variable {message : List Byte} {msglen : ℕ}

theorem length_chunkOf (h : message.length ≤ 53) : (chunkOf message).length = 64 := by
  simp [chunkOf]
  omega

/-- The chunk is the padded message of the standard. -/
theorem chunkOf_eq_pad (h : message.length ≤ 53) : chunkOf message = Sha256.pad message := by
  have hzeros : Sha256.zeros message.length = 55 - message.length := by
    unfold Sha256.zeros
    omega
  have hlen : Sha256.bigEndian64 (8 * message.length) = List.replicate 6 0 ++
      [BitVec.ofNat 8 (message.length * 8 / 2 ^ 8), BitVec.ofNat 8 (message.length * 8)] := by
    have hdiv (k : ℕ) (hk : 512 ≤ k) : message.length * 8 / k = 0 := Nat.div_eq_of_lt (by omega)
    simp [Sha256.bigEndian64, List.range_succ, hdiv, List.replicate, Nat.mul_comm 8]
  have hpad : 62 - (message.length + 1) = 55 - message.length + 6 := by omega
  rw [chunkOf, Sha256.pad, hzeros, hlen, hpad, List.replicate_add]
  simp

theorem getElem?_chunkOf (h : message.length ≤ 53) {i : ℕ} (hi : i < 64) :
    (chunkOf message)[i]? =
      if i < message.length then message[i]?
      else if i = message.length then some 0x80
      else if i < 62 then some 0
      else some (BitVec.ofNat 8 ((message.length * 8) >>> ((63 - i) * 8))) := by
  have hlen : (message ++ [0x80] ++ List.replicate (62 - (message.length + 1)) 0).length = 62 := by
    simp
    omega
  rw [chunkOf]
  by_cases h62 : i < 62
  · rw [List.getElem?_append_left (by omega)]
    by_cases hmsg : i < message.length
    · rw [if_pos hmsg, List.append_assoc, List.getElem?_append_left hmsg]
    · rw [if_neg hmsg]
      by_cases hone : i = message.length
      · subst hone
        simp
      · have hrest : i - message.length = (i - message.length - 1) + 1 := by omega
        rw [if_neg hone, if_pos h62, List.append_assoc, List.getElem?_append_right (by omega),
          hrest, List.singleton_append, List.getElem?_cons_succ,
          List.getElem?_replicate_of_lt (by omega)]
  · rw [List.getElem?_append_right (by omega), hlen, if_neg (by omega), if_neg (by omega),
      if_neg h62]
    obtain rfl | rfl : i = 62 ∨ i = 63 := by omega
    · rw [Nat.shiftRight_eq_div_pow]
      rfl
    · rfl

theorem buildChunk_toList (hlen : msglen ≤ message.length) (hle : msglen ≤ 53)
    (chunk : Vector Byte 64) :
    (buildChunk message msglen chunk).toList = chunkOf (message.take msglen) := by
  have htake : (message.take msglen).length = msglen := by
    rw [List.length_take]
    omega
  apply List.ext_getElem?
  intro i
  rw [Vector.getElem?_toList]
  by_cases hi : i < 64
  · rw [getElem?_chunkOf (by omega) hi, htake, buildChunk]
    by_cases h62 : i < 62
    · rw [getElem?_fill_of_outside (by omega)]
      by_cases hz : msglen < i
      · rw [getElem?_fill (causal_const _ _) (by omega) (by omega) hi, if_neg (by omega),
          if_neg (by omega), if_pos h62]
      · rw [getElem?_fill_of_outside (by omega)]
        by_cases hone : i = msglen
        · subst hone
          rw [Vector.getElem?_setIfInBounds_self_of_lt hi]
          simp
        · rw [Vector.getElem?_setIfInBounds_ne (by omega),
            getElem?_fill (causal_const _ _) (by omega) (by omega) hi, if_pos (by omega),
            List.getElem?_take_of_lt (by omega), List.getD_eq_getElem?_getD,
            List.getElem?_eq_getElem (by omega)]
          rfl
    · rw [getElem?_fill (causal_const _ _) (by omega) (by omega) hi, if_neg (by omega),
        if_neg (by omega), if_neg h62]
  · rw [Vector.getElem?_eq_none (by omega), List.getElem?_eq_none]
    rw [length_chunkOf (by omega)]
    omega

end Chunk

/-! ## The message schedule -/

theorem s0_eq : s0 = Sha256.smallSigma0 := rfl

theorem s1_eq : s1 = Sha256.smallSigma1 := rfl

/-- Four shifted bytes are the word of the standard. -/
theorem word_eq (a b c d : Byte) :
    a.setWidth 32 <<< 24 ||| b.setWidth 32 <<< 16 ||| c.setWidth 32 <<< 8 ||| d.setWidth 32 =
      (a ++ b ++ c ++ d : Word) := by
  apply BitVec.eq_of_getLsbD_eq
  intro i hi
  simp only [BitVec.getLsbD_or, BitVec.getLsbD_shiftLeft, BitVec.getLsbD_setWidth,
    BitVec.getLsbD_append]
  grind

theorem chunkWord_eq (chunk : Vector Byte 64) (i : ℕ) :
    chunkWord chunk i = Sha256.wordOf chunk.toList i := by
  have hget : ∀ j, chunkAt chunk j = (chunk.toList.getD j 0).setWidth 32 := by
    intro j
    rw [chunkAt, List.getD_eq_getElem?_getD, Vector.getElem?_toList]
  rw [chunkWord, hget, hget, hget, hget, word_eq, Nat.mul_comm i]
  rfl

theorem causal_nextWord : Causal nextWord 16 := by
  intro v v' i hi hsame
  simp only [nextWord, wAt, hsame (i - 16) (by omega), hsame (i - 15) (by omega),
    hsame (i - 7) (by omega), hsame (i - 2) (by omega)]

/-- **The loops fill `w` with the message schedule** of the chunk, whatever it held. -/
theorem wAt_buildW (chunk : Vector Byte 64) (w : Vector Word 64) {t : ℕ} (ht : t < 64) :
    wAt (buildW chunk w) t = Sha256.schedule (Sha256.wordOf chunk.toList) t := by
  have hfirst : ∀ t < 16, wAt (buildW chunk w) t = Sha256.wordOf chunk.toList t := by
    intro t ht
    rw [wAt, buildW, getElem?_fill_of_outside (by omega),
      getElem?_fill (causal_const _ _) (by omega) (by omega) (by omega), Option.getD_some,
      chunkWord_eq]
  have hnext : ∀ t, 16 ≤ t → t < 64 → wAt (buildW chunk w) t =
      Sha256.smallSigma1 (wAt (buildW chunk w) (t - 2)) + wAt (buildW chunk w) (t - 7) +
      Sha256.smallSigma0 (wAt (buildW chunk w) (t - 15)) + wAt (buildW chunk w) (t - 16) := by
    intro t ht ht'
    have h : (buildW chunk w)[t]? = some (nextWord (buildW chunk w) t) :=
      getElem?_fill causal_nextWord ht (by omega) ht'
    rw [wAt, h, Option.getD_some, nextWord, s0_eq, s1_eq]
    ac_rfl
  exact Sha256.eq_schedule hfirst hnext ht

/-! ## The rounds -/

/-- The variables as those of the standard. -/
def ShaState.vars (s : ShaState) : Sha256.Vars := ⟨s.a, s.b, s.c, s.d, s.e, s.f, s.g, s.h⟩

theorem shaRound_vars {w : List Word} {W : ℕ → Word} {i : ℕ} (h : w.getD i 0 = W i) (s : ShaState) :
    (shaRound w s i).vars = Sha256.round W s.vars i := by
  rw [shaRound, h]
  rfl

theorem rounds_vars {w : List Word} {W : ℕ → Word} {is : List ℕ} (h : ∀ i ∈ is, w.getD i 0 = W i)
    (s : ShaState) : (is.foldl (shaRound w) s).vars = is.foldl (Sha256.round W) s.vars := by
  induction is generalizing s with
  | nil => rfl
  | cons i is ih =>
      rw [List.foldl_cons, List.foldl_cons, ih fun j hj => h j (List.mem_cons_of_mem i hj),
        shaRound_vars (h i List.mem_cons_self)]

/-- `endian` reverses the bytes. -/
theorem getLsbD_endian (x : Word) : ∀ r < 4, ∀ i < 8,
    (endian x).getLsbD (8 * r + i) = x.getLsbD (8 * (3 - r) + i) := by
  intro r hr i hi
  interval_cases r <;> interval_cases i <;> simp [endian]

theorem setWidth_endian (x : Word) {r : ℕ} (hr : r < 4) :
    ((endian x) >>> (8 * r)).setWidth 8 = x.extractLsb' (8 * (3 - r)) 8 := by
  apply BitVec.eq_of_getLsbD_eq
  intro i hi
  rw [BitVec.getLsbD_setWidth, BitVec.getLsbD_ushiftRight, getLsbD_endian x r hr i hi,
    BitVec.getLsbD_extractLsb']

/-- The final byte swap stores the words of the standard. -/
theorem storeWord_endian (x : Word) : storeWord (endian x) = Sha256.wordBytes x := by
  rw [storeWord, setWidth_endian x (show 1 < 4 by decide), setWidth_endian x (show 2 < 4 by decide),
    setWidth_endian x (show 3 < 4 by decide)]
  have h0 := setWidth_endian x (show 0 < 4 by decide)
  rw [Nat.mul_zero, BitVec.ushiftRight_zero] at h0
  rw [h0]
  rfl

theorem finish_eq (s : ShaState) : finish s =
    (Sha256.Vars.toList ⟨s.a + initialHash.a, s.b + initialHash.b, s.c + initialHash.c,
      s.d + initialHash.d, s.e + initialHash.e, s.f + initialHash.f, s.g + initialHash.g,
      s.h + initialHash.h⟩).flatMap Sha256.wordBytes := by
  simp only [finish, Sha256.Vars.toList, storeWord_endian, BitVec.add_comm]

/-- The digest of words that are the message schedule of a padded message. -/
theorem finish_rounds {message : List Byte} (hle : message.length ≤ 53) {w : List Word}
    (hw : ∀ t < 64, w.getD t 0 = Sha256.schedule (Sha256.wordOf (chunkOf message)) t) :
    finish ((List.range 64).foldl (shaRound w) initialHash) = Sha256.hash message := by
  have hrounds : ((List.range 64).foldl (shaRound w) initialHash).vars =
      (List.range 64).foldl (Sha256.round (Sha256.schedule (Sha256.wordOf (chunkOf message))))
        Sha256.initial :=
    rounds_vars (fun t ht => hw t (List.mem_range.mp ht)) initialHash
  rw [Sha256.hash_of_lt (by omega), ← chunkOf_eq_pad hle, Sha256.compress, ← hrounds, finish_eq]
  rfl

/-! ## The digest -/

/-- One iteration of `extendWords`. -/
def extendOne (w : List Word) (j : ℕ) : List Word :=
  let i := j + 16
  w ++ [w.getD (i - 16) 0 + s0 (w.getD (i - 15) 0) + w.getD (i - 7) 0 + s1 (w.getD (i - 2) 0)]

theorem firstWords_eq (chunk : Vector Byte 64) (w : Vector Word 64) :
    firstWords chunk.toList = (buildW chunk w).toList.take 16 := by
  apply List.ext_getElem?
  intro t
  by_cases ht : t < 16
  · have hword : (buildW chunk w)[t]? = some (chunkWord chunk t) := by
      rw [buildW, getElem?_fill_of_outside (by omega),
        getElem?_fill (causal_const _ _) (by omega) (by omega) (by omega)]
    rw [List.getElem?_take_of_lt ht, Vector.getElem?_toList, hword, firstWords, List.getElem?_map,
      List.getElem?_range ht, Option.map_some, chunkWord_eq, word_eq, Nat.mul_comm t]
    rfl
  · rw [List.getElem?_eq_none (by simp [firstWords]; omega),
      List.getElem?_eq_none (by simp; omega)]

theorem getD_take (w : Vector Word 64) {n i : ℕ} (hi : i < n) :
    (w.toList.take n).getD i 0 = wAt w i := by
  rw [List.getD_eq_getElem?_getD, List.getElem?_take_of_lt hi, Vector.getElem?_toList, wAt]

/-- **The list of words** grows as the array is filled. -/
theorem extend_eq (chunk : Vector Byte 64) (w : Vector Word 64) {n : ℕ} (hn : n ≤ 48) :
    (List.range n).foldl extendOne (firstWords chunk.toList) =
      (buildW chunk w).toList.take (16 + n) := by
  induction n with
  | zero => exact firstWords_eq chunk w
  | succ n ih =>
      have hword : (buildW chunk w)[n + 16]? = some (nextWord (buildW chunk w) (n + 16)) :=
        getElem?_fill causal_nextWord (by omega) (by omega) (by omega)
      rw [List.range_succ, List.foldl_append, List.foldl_cons, List.foldl_nil, ih (by omega),
        extendOne, getD_take _ (by omega), getD_take _ (by omega), getD_take _ (by omega),
        getD_take _ (by omega), ← Nat.add_assoc, List.take_add_one, Vector.getElem?_toList,
        Nat.add_comm 16 n, hword]
      rfl

theorem extendWords_eq (chunk : Vector Byte 64) (w : Vector Word 64) :
    extendWords (firstWords chunk.toList) = (buildW chunk w).toList := by
  refine (extend_eq chunk w le_rfl).trans (List.take_of_length_le ?_)
  simp

end Sha

open Sha in
/-- The digest does not depend on what the arrays held. -/
theorem bispeSha256Work_digest {message : List Byte} {msglen : ℕ} (hlen : msglen ≤ message.length)
    (work : Work) : (bispeSha256Work message msglen work).1 = bispeSha256 message msglen := by
  have hmin : (if msglen > 53 then 53 else msglen) = min msglen 53 := by
    split <;> omega
  rw [bispeSha256Work, hmin, ← extendWords_eq, buildChunk_toList (by omega) (by omega)]
  rfl

open Sha in
/-- **`bispe_sha256` is SHA-256** of the first 53 bytes at most, from any contents of
its work buffers. -/
theorem bispeSha256_conforms (message : List Byte) (work : Work) :
    (bispeSha256Work message message.length work).1 =
        Sha256.hash (message.take (min message.length 53)) ∧
      bispeSha256 message message.length = Sha256.hash (message.take (min message.length 53)) := by
  have hle : (message.take (min message.length 53)).length ≤ 53 := by
    rw [List.length_take]
    omega
  have hlen : (if message.length > 53 then 53 else message.length) = min message.length 53 := by
    split <;> omega
  have hwork : (bispeSha256Work message message.length work).1 =
      Sha256.hash (message.take (min message.length 53)) := by
    rw [bispeSha256Work, hlen]
    apply finish_rounds hle
    intro t ht
    have hw := wAt_buildW (buildChunk message (min message.length 53) work.chunk) work.w ht
    rw [buildChunk_toList (by omega) (by omega), wAt] at hw
    rw [← hw, List.getD_eq_getElem?_getD, Vector.getElem?_toList]
  exact ⟨hwork, (bispeSha256Work_digest le_rfl work).symm.trans hwork⟩

example : (bispeSha256 [0x61, 0x62, 0x63] 3).take 4 = [0xba, 0x78, 0x16, 0xbf] := by
  decide +kernel

/-! ## What the work buffers keep -/

namespace Sha

/-- What is left in the buffers: `memset` clears the chunk and the first 16 words. -/
theorem work_chunk (message : List Byte) (msglen : ℕ) (work : Work) :
    (bispeSha256Work message msglen work).2.chunk = Vector.replicate 64 0 := by
  apply Vector.ext
  intro i hi
  have h : (bispeSha256Work message msglen work).2.chunk[i]? = some 0 :=
    getElem?_fill (causal_const _ _) (by omega) (by omega) hi
  rw [Vector.getElem?_eq_getElem hi, Option.some.injEq] at h
  rw [h, Vector.getElem_replicate]

theorem work_w (message : List Byte) (work : Work) {t : ℕ} (ht : t < 64) :
    (bispeSha256Work message message.length work).2.w[t]? =
      some (if t < 16 then 0
        else Sha256.schedule (Sha256.wordOf (chunkOf (message.take 53))) t) := by
  have hlen : (if message.length > 53 then 53 else message.length) = min message.length 53 := by
    split <;> omega
  have htake : message.take (min message.length 53) = message.take 53 := by
    rw [Nat.min_comm, ← List.take_take, List.take_length]
  rw [bispeSha256Work, memsetW, hlen]
  by_cases h16 : t < 16
  · rw [getElem?_fill (causal_const _ _) (by omega) (by omega) ht, if_pos h16]
  · rw [getElem?_fill_of_outside (by omega), if_neg h16]
    have hw := wAt_buildW (buildChunk message (min message.length 53) work.chunk) work.w ht
    rw [buildChunk_toList (by omega) (by omega), htake] at hw
    rw [← hw, wAt, Vector.getElem?_eq_getElem ht, Option.getD_some]

/-- A word determines its bytes. -/
theorem getD_of_wordOf {block block' : List Byte} {t : ℕ}
    (h : Sha256.wordOf block t = Sha256.wordOf block' t) {r : ℕ} (hr : r < 4) :
    block.getD (4 * t + r) 0 = block'.getD (4 * t + r) 0 := by
  rw [← Sha256.extractLsb'_wordOf block t hr, h, Sha256.extractLsb'_wordOf block' t hr]

/-- Words 0 to 15 determine a chunk. -/
theorem chunk_of_words {block block' : List Byte} (hlen : block.length = 64)
    (hlen' : block'.length = 64)
    (h : ∀ t < 16, Sha256.wordOf block t = Sha256.wordOf block' t) : block = block' := by
  apply List.ext_getElem (by omega)
  intro i hi hi'
  have hbyte := getD_of_wordOf (h (i / 4) (by omega)) (Nat.mod_lt i (show 0 < 4 by decide))
  rwa [Nat.div_add_mod, List.getD_eq_getElem _ _ hi, List.getD_eq_getElem _ _ hi'] at hbyte

/-- The last two bytes of a chunk are the length in bits. -/
theorem chunkOf_length {message : List Byte} (h : message.length ≤ 53) :
    ((chunkOf message).getD 62 0).toNat * 256 + ((chunkOf message).getD 63 0).toNat =
      message.length * 8 := by
  rw [List.getD_eq_getElem?_getD, List.getD_eq_getElem?_getD, getElem?_chunkOf h (by decide),
    getElem?_chunkOf h (by decide), if_neg (by omega), if_neg (by omega), if_neg (by omega),
    if_neg (by omega), if_neg (by omega), if_neg (by omega), Option.getD_some, Option.getD_some,
    BitVec.toNat_ofNat, BitVec.toNat_ofNat, Nat.shiftRight_eq_div_pow]
  omega

/-- The chunk determines the message. -/
theorem chunkOf_injective {message message' : List Byte} (hle : message.length ≤ 53)
    (hle' : message'.length ≤ 53) (h : chunkOf message = chunkOf message') :
    message = message' := by
  have hlen : message.length = message'.length := by
    have h8 := chunkOf_length hle
    rw [h, chunkOf_length hle'] at h8
    omega
  simp only [chunkOf, List.append_assoc] at h
  exact (List.append_inj h hlen).1

/-- **The words that are left determine what was hashed.** -/
theorem take_eq_of_work_eq {message message' : List Byte} {work work' : Work}
    (h : (bispeSha256Work message message.length work).2 =
      (bispeSha256Work message' message'.length work').2) :
    message.take 53 = message'.take 53 := by
  have hlate : ∀ t, 16 ≤ t → t < 16 + 16 →
      Sha256.schedule (Sha256.wordOf (chunkOf (message.take 53))) t =
        Sha256.schedule (Sha256.wordOf (chunkOf (message'.take 53))) t := by
    intro t ht ht'
    have hw := congrArg (fun work : Work => work.w[t]?) h
    simp only [work_w _ _ (show t < 64 by omega)] at hw
    rwa [if_neg (by omega), if_neg (by omega), Option.some.injEq] at hw
  have hle : ∀ message : List Byte, (message.take 53).length ≤ 53 := List.length_take_le 53
  apply chunkOf_injective (hle message) (hle message')
  apply chunk_of_words (length_chunkOf (hle message)) (length_chunkOf (hle message'))
  intro t ht
  have hearly := Sha256.schedule_backwards hlate (show t < 16 + 16 by omega)
  rwa [Sha256.schedule_of_lt ht, Sha256.schedule_of_lt ht] at hearly

theorem work_eq_of_take_eq {message message' : List Byte} (h : message.take 53 = message'.take 53)
    (work work' : Work) : (bispeSha256Work message message.length work).2 =
      (bispeSha256Work message' message'.length work').2 := by
  have hw : (bispeSha256Work message message.length work).2.w =
      (bispeSha256Work message' message'.length work').2.w := by
    apply Vector.ext
    intro t ht
    have hsome := work_w message work ht
    rw [h, ← work_w message' work' ht, Vector.getElem?_eq_getElem ht,
      Vector.getElem?_eq_getElem ht] at hsome
    exact Option.some.inj hsome
  have hchunk := (work_chunk message message.length work).trans
    (work_chunk message' message'.length work').symm
  cases hleft : (bispeSha256Work message message.length work).2
  cases hright : (bispeSha256Work message' message'.length work').2
  rw [hleft, hright] at hw hchunk
  rw [Work.mk.injEq]
  exact ⟨hchunk, hw⟩

end Sha

open Sha in
/-- **When the work buffers keep no trace**: they are the same after two calls just
when the two hashed the same bytes.  The 48 words behind the 16 that `memset` clears
run the schedule backwards. -/
theorem bispeSha256Work_leaves_no_trace_iff (message message' : List Byte) (work work' : Work) :
    (bispeSha256Work message message.length work).2 =
        (bispeSha256Work message' message'.length work').2 ↔
      message.take 53 = message'.take 53 :=
  ⟨take_eq_of_work_eq, fun h => work_eq_of_take_eq h work work'⟩

/-- The empty message and the message `a`, in buffers of zeros. -/
theorem bispeSha256Work_leaves_trace :
    (bispeSha256Work [] 0 ⟨Vector.replicate 64 0, Vector.replicate 64 0⟩).2 ≠
      (bispeSha256Work [0x61] 1 ⟨Vector.replicate 64 0, Vector.replicate 64 0⟩).2 := by
  intro h
  exact absurd (Sha.take_eq_of_work_eq h) (by decide)

end Bispe
