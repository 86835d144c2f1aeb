import Bispe.Backend.Instructions
import Mathlib.Data.List.TakeWhile

/-!
# From the typed password to the key

`read_password` stores the characters that are typed in a buffer of the front end,
`password_store` gets the whole buffer, cuts it at its first NUL and hashes what is left.
Nobody writes that NUL, but for the one in the last place: behind the typed characters is
what the buffer held before.

## Main definitions

* `readPassword` — the loop of the front end.
* `bispeSha256` — SHA-256 of a single chunk.
* `passwordStore` — the key of a buffer.
* `FirstMessage` — what is hashed first.
* `Continues` — the old buffer goes on as the password does.
-/

namespace Bispe

abbrev Byte := BitVec 8

/-! ## The front end -/

/-- The size of `pw`. -/
def pwSize : ℕ := 54

def newline : Byte := 10

/-- A character is stored in a signed `char` before it is compared with `EOF`. -/
def readsAsEof (ch : Byte) : Bool := ch.toInt = -1

/-- The loop of `read_password` on the characters of `stdin`, up to its end. -/
def readLoop (size : ℕ) : List Byte → ℕ → List Byte → List Byte
  | [], _, buf => buf
  | ch :: stdin, pos, buf =>
      if readsAsEof ch then buf
      else if ch = newline then buf
      else if size ≤ pos + 1 then buf.set pos ch
      else readLoop size stdin (pos + 1) (buf.set pos ch)

/-- `read_password`, where no read fails. -/
def readPassword (stdin buf : List Byte) (size : ℕ) : List Byte := readLoop size stdin 0 buf

/-! ## SHA-256 -/

namespace Sha

def rot (x : Word) (n : ℕ) : Word := x >>> n ||| x <<< (32 - n)

def s0 (x : Word) : Word := rot x 7 ^^^ rot x 18 ^^^ x >>> 3

def s1 (x : Word) : Word := rot x 17 ^^^ rot x 19 ^^^ x >>> 10

def bigS0 (x : Word) : Word := rot x 2 ^^^ rot x 13 ^^^ rot x 22

def bigS1 (x : Word) : Word := rot x 6 ^^^ rot x 11 ^^^ rot x 25

def ch (x y z : Word) : Word := (x &&& y) ^^^ (~~~x &&& z)

def maj (x y z : Word) : Word := (x &&& y) ^^^ (x &&& z) ^^^ (y &&& z)

def endian (x : Word) : Word :=
  x >>> 24 ||| (x >>> 8 &&& 0x0000FF00) ||| (x <<< 24 ||| (x <<< 8 &&& 0x00FF0000))

/-- SHA256 constants. -/
def k : List Word := [
  0x428a2f98, 0x71374491, 0xb5c0fbcf, 0xe9b5dba5, 0x3956c25b,
  0x59f111f1, 0x923f82a4, 0xab1c5ed5, 0xd807aa98, 0x12835b01,
  0x243185be, 0x550c7dc3, 0x72be5d74, 0x80deb1fe, 0x9bdc06a7,
  0xc19bf174, 0xe49b69c1, 0xefbe4786, 0x0fc19dc6, 0x240ca1cc,
  0x2de92c6f, 0x4a7484aa, 0x5cb0a9dc, 0x76f988da, 0x983e5152,
  0xa831c66d, 0xb00327c8, 0xbf597fc7, 0xc6e00bf3, 0xd5a79147,
  0x06ca6351, 0x14292967, 0x27b70a85, 0x2e1b2138, 0x4d2c6dfc,
  0x53380d13, 0x650a7354, 0x766a0abb, 0x81c2c92e, 0x92722c85,
  0xa2bfe8a1, 0xa81a664b, 0xc24b8b70, 0xc76c51a3, 0xd192e819,
  0xd6990624, 0xf40e3585, 0x106aa070, 0x19a4c116, 0x1e376c08,
  0x2748774c, 0x34b0bcb5, 0x391c0cb3, 0x4ed8aa4a, 0x5b9cca4f,
  0x682e6ff3, 0x748f82ee, 0x78a5636f, 0x84c87814, 0x8cc70208,
  0x90befffa, 0xa4506ceb, 0xbef9a3f7, 0xc67178f2]

/-- The chunk: the message, a one bit, zeros, and the length in bits. -/
def chunkOf (message : List Byte) : List Byte :=
  message ++ [0x80] ++ List.replicate (62 - (message.length + 1)) 0 ++
    [BitVec.ofNat 8 (message.length * 8 / 2 ^ 8), BitVec.ofNat 8 (message.length * 8)]

/-- The first 16 words of `w`. -/
def firstWords (chunk : List Byte) : List Word :=
  (List.range 16).map fun i =>
    (chunk.getD (i * 4) 0).setWidth 32 <<< 24 ||| (chunk.getD (i * 4 + 1) 0).setWidth 32 <<< 16 |||
      (chunk.getD (i * 4 + 2) 0).setWidth 32 <<< 8 ||| (chunk.getD (i * 4 + 3) 0).setWidth 32

/-- Extend 16 words to 64. -/
def extendWords (w : List Word) : List Word :=
  (List.range 48).foldl (fun w j =>
    let i := j + 16
    w ++ [w.getD (i - 16) 0 + s0 (w.getD (i - 15) 0) + w.getD (i - 7) 0 +
      s1 (w.getD (i - 2) 0)]) w

/-- The variables `a` to `h`. -/
structure ShaState where
  a : Word
  b : Word
  c : Word
  d : Word
  e : Word
  f : Word
  g : Word
  h : Word

def initialHash : ShaState :=
  ⟨0x6a09e667, 0xbb67ae85, 0x3c6ef372, 0xa54ff53a, 0x510e527f, 0x9b05688c, 0x1f83d9ab, 0x5be0cd19⟩

/-- One round of the main loop. -/
def shaRound (w : List Word) (s : ShaState) (i : ℕ) : ShaState :=
  let t1 := s.h + bigS1 s.e + ch s.e s.f s.g + k.getD i 0 + w.getD i 0
  let t2 := bigS0 s.a + maj s.a s.b s.c
  ⟨t1 + t2, s.a, s.b, s.c, s.d + t1, s.e, s.f, s.g⟩

/-- The bytes of a word in memory. -/
def storeWord (x : Word) : List Byte :=
  [x.setWidth 8, (x >>> 8).setWidth 8, (x >>> 16).setWidth 8, (x >>> 24).setWidth 8]

/-- The digest of the characters that are hashed. -/
def digest (message : List Byte) : List Byte :=
  let w := extendWords (firstWords (chunkOf message))
  let s := (List.range 64).foldl (shaRound w) initialHash
  let i := initialHash
  [i.a + s.a, i.b + s.b, i.c + s.c, i.d + s.d, i.e + s.e, i.f + s.f, i.g + s.g, i.h + s.h].flatMap
    fun x => storeWord (endian x)

end Sha

/-- The characters of a message that are hashed: the first 53 at most. -/
def restrict (message : List Byte) (msglen : ℕ) : List Byte := message.take (min msglen 53)

/-- `bispe_sha256`. -/
def bispeSha256 (message : List Byte) (msglen : ℕ) : List Byte :=
  Sha.digest (restrict message msglen)

/-! ## The back end -/

/-- `BISPE_KDF_ITER`. -/
def kdfIter : ℕ := 2000

def strlen (s : List Byte) : ℕ := (s.takeWhile (· ≠ 0)).length

/-- The rounds of `password_store` after the first hash. -/
def deriveKey (key : List Byte) : List Byte :=
  (List.range kdfIter).foldl (fun key _ => bispeSha256 (bispeSha256 key 32) 32) key

/-- The local buffer of `password_store`: a copy, with a NUL in the last place. -/
def passwordOf (buf : List Byte) : List Byte := (buf.take 54).set 53 0

/-- The key that `password_store` sets on every cpu. -/
def passwordStore (buf : List Byte) : List Byte :=
  deriveKey (bispeSha256 (passwordOf buf) (strlen (passwordOf buf)))

/-- The message that `password_store` hashes first. -/
def firstMessage (buf : List Byte) : List Byte :=
  restrict (passwordOf buf) (strlen (passwordOf buf))

/-- The key depends on the first message only. -/
theorem passwordStore_eq (buf : List Byte) :
    passwordStore buf = deriveKey (Sha.digest (firstMessage buf)) := rfl

/-! ## What is hashed -/

/-- What stands in `pw` after the password has been typed. -/
def typedBuffer (typed rest prev : List Byte) : List Byte :=
  readPassword (typed ++ newline :: rest) prev pwSize

/-- The characters up to the first one that reads as the end of input. -/
def untilEof (typed : List Byte) : List Byte := typed.takeWhile fun ch => ¬ readsAsEof ch

/-- Where reading stops, the old buffer goes on with the rest of the password and a NUL, as
far as its first 53 places. -/
def Continues (typed prev : List Byte) : Prop :=
  (typed.drop (untilEof typed).length ++ [0]).take (53 - (untilEof typed).length) <+:
    prev.drop (untilEof typed).length

instance (typed prev : List Byte) : Decidable (Continues typed prev) := by
  unfold Continues; infer_instance

section Reading
variable {typed rest prev : List Byte}

/-- The loop replaces the places it gets to, and leaves the others alone. -/
theorem readLoop_eq (hnl : newline ∉ typed) {size pos : ℕ} (hpos : pos < size)
    (hlen : prev.length = size) :
    readLoop size (typed ++ newline :: rest) pos prev =
      prev.take pos ++ (untilEof typed).take (size - pos) ++
        prev.drop (pos + ((untilEof typed).take (size - pos)).length) := by
  induction typed generalizing pos prev with
  | nil => simp [readLoop, untilEof, readsAsEof, newline]
  | cons ch typed ih =>
      have hne : ch ≠ newline := fun h => hnl (by simp [h])
      have hnl' : newline ∉ typed := fun h => hnl (List.mem_cons_of_mem _ h)
      have hset : prev.set pos ch = prev.take pos ++ ch :: prev.drop (pos + 1) := by
        rw [List.set_eq_take_append_cons_drop, if_pos (by omega)]
      by_cases heof : readsAsEof ch = true
      · simp [readLoop, untilEof, heof]
      · have huntil : untilEof (ch :: typed) = ch :: untilEof typed := by simp [untilEof, heof]
        have htake : (untilEof (ch :: typed)).take (size - pos) =
            ch :: (untilEof typed).take (size - (pos + 1)) := by
          rw [huntil, show size - pos = size - (pos + 1) + 1 by omega, List.take_succ_cons]
        rw [List.cons_append, readLoop, if_neg heof, if_neg hne, htake]
        by_cases hlast : size ≤ pos + 1
        · rw [if_pos hlast, hset, show size - (pos + 1) = 0 by omega]
          simp
        · have hfirst : (prev.set pos ch).take (pos + 1) = prev.take pos ++ [ch] := by
            rw [hset, List.take_append, List.take_of_length_le (by rw [List.length_take]; omega)]
            simp [hlen, show pos ≤ size by omega]
          rw [if_neg hlast, ih hnl' (by omega) (by rw [List.length_set, hlen]), hfirst,
            List.drop_set_of_lt (by omega), List.length_cons]
          simp only [List.append_assoc, List.cons_append, List.nil_append]
          rw [show pos + 1 + _ = pos + (_ + 1) from Nat.succ_add_eq_add_succ _ _]

theorem typedBuffer_eq (hnl : newline ∉ typed) (hlen : prev.length = pwSize) :
    typedBuffer typed rest prev = (untilEof typed).take pwSize ++
      prev.drop ((untilEof typed).take pwSize).length := by
  have h : readLoop pwSize (typed ++ newline :: rest) 0 prev = _ :=
    readLoop_eq hnl (by decide) hlen
  simpa [typedBuffer, readPassword] using h

/-- What is hashed first ends at the first NUL, and at place 53. -/
theorem firstMessage_eq {buf : List Byte} (hlen : buf.length = pwSize) :
    firstMessage buf = (buf.take 53).takeWhile (· ≠ 0) := by
  have hbuf : passwordOf buf = buf.take 53 ++ [0] := by
    rw [passwordOf, List.take_of_length_le (by rw [hlen]; exact Nat.le_refl _),
      List.set_eq_take_append_cons_drop, if_pos (by rw [hlen]; decide),
      List.drop_eq_nil_of_le (by rw [hlen]; decide)]
  have hwhile : (passwordOf buf).takeWhile (· ≠ 0) = (buf.take 53).takeWhile (· ≠ 0) := by
    rw [hbuf, List.takeWhile_append]
    split
    · next hall =>
      rw [(List.takeWhile_prefix _).eq_of_length hall]
      simp
    · rfl
  have hle : strlen (passwordOf buf) ≤ 53 := by
    rw [strlen, hwhile]
    exact Nat.le_trans (List.takeWhile_prefix _).length_le (List.length_take_le _ _)
  have hprefix := List.prefix_iff_eq_take.mp (List.takeWhile_prefix (l := passwordOf buf) (· ≠ 0))
  rw [firstMessage, restrict, Nat.min_eq_left hle, strlen, ← hprefix, hwhile]

/-- Up to its first NUL a list goes on as another does, which holds none. -/
theorem takeWhile_take_eq_iff (n : ℕ) (old new : List Byte) (hold : n ≤ old.length)
    (hnew : (0 : Byte) ∉ new) :
    (old.take n).takeWhile (· ≠ 0) = new.take n ↔ (new ++ [0]).take n <+: old := by
  induction n generalizing old new with
  | zero => simp
  | succ n ih =>
      obtain _ | ⟨o, old⟩ := old
      · simp at hold
      · cases new with
        | nil =>
            by_cases ho : o = 0
            · simp [ho]
            · rw [List.take_succ_cons, List.takeWhile_cons_of_pos (by simpa using ho)]
              exact iff_of_false (by simp) (by simpa using fun h : 0 = o => ho h.symm)
        | cons c new =>
            have hc : c ≠ 0 := fun h => hnew (by simp [h])
            have hrest := ih old new (by simpa using hold) fun h => hnew (List.mem_cons_of_mem _ h)
            simp only [List.take_succ_cons, List.cons_append, List.cons_prefix_cons, ← hrest]
            by_cases ho : o = 0
            · subst ho
              simpa using fun h => absurd h hc
            · rw [List.takeWhile_cons_of_pos (by simpa using ho), List.cons.injEq]
              exact and_congr_left' eq_comm

/-- **When the typed password is what is hashed.** -/
theorem firstMessage_typed_iff (hnl : newline ∉ typed) (hnul : (0 : Byte) ∉ typed)
    (hlen : prev.length = pwSize) :
    firstMessage (typedBuffer typed rest prev) = typed.take 53 ↔ Continues typed prev := by
  have hbuf : typedBuffer typed rest prev = _ := typedBuffer_eq hnl hlen
  have hlen' : (typedBuffer typed rest prev).length = pwSize := by
    rw [hbuf, List.length_append, List.length_drop, List.length_take]
    omega
  rw [firstMessage_eq hlen', hbuf, Continues]
  -- the characters that are read, and the rest of the password
  have huntil : untilEof typed <+: typed := List.takeWhile_prefix _
  have hread := List.prefix_iff_eq_take.mp huntil
  have hnul' : (0 : Byte) ∉ untilEof typed := fun h => hnul (huntil.subset h)
  have hkeep {l : List Byte} (hl : (0 : Byte) ∉ l) : l.takeWhile (· ≠ 0) = l :=
    List.takeWhile_eq_self_iff.mpr fun x hx => by
      simpa using fun h : x = 0 => hl (h ▸ hx)
  by_cases hfull : 53 ≤ (untilEof typed).length
  · -- the buffer is full
    have hmessage : ((untilEof typed).take pwSize ++
        prev.drop ((untilEof typed).take pwSize).length).take 53 = typed.take 53 := by
      have hle : 53 ≤ ((untilEof typed).take pwSize).length := by
        rw [List.length_take]
        exact Nat.le_min.mpr ⟨by decide, hfull⟩
      rw [List.take_append_of_le_length hle,
        List.take_take, Nat.min_eq_left (by decide), hread, List.take_take, Nat.min_eq_left hfull]
    rw [hmessage, hkeep fun h => hnul (List.mem_of_mem_take h), Nat.sub_eq_zero_of_le hfull,
      List.take_zero]
    exact iff_of_true rfl List.nil_prefix
  · -- reading stops before place 53
    have hlt : (untilEof typed).length < 53 := Nat.lt_of_not_le hfull
    have hshort : (untilEof typed).take pwSize = untilEof typed :=
      List.take_of_length_le (by unfold pwSize; omega)
    have hold : 53 - (untilEof typed).length ≤ (prev.drop (untilEof typed).length).length := by
      rw [List.length_drop, hlen]
      unfold pwSize
      omega
    have hnew : (0 : Byte) ∉ typed.drop (untilEof typed).length :=
      fun h => hnul (List.mem_of_mem_drop h)
    have htyped : typed.take 53 = untilEof typed ++
        (typed.drop (untilEof typed).length).take (53 - (untilEof typed).length) := by
      conv_lhs => rw [← List.take_append_drop (untilEof typed).length typed, ← hread]
      rw [List.take_append, List.take_of_length_le (by omega)]
    rw [hshort, List.take_append, List.take_of_length_le (by omega),
      List.takeWhile_append_of_pos (fun x hx => by simpa using fun h : x = 0 => hnul' (h ▸ hx)),
      htyped, List.append_cancel_left_eq]
    exact takeWhile_take_eq_iff _ _ _ hold hnew

end Reading

/-! ## Two runs -/

/-- The password is what is hashed first, whichever of two contents the buffer had, and the
keys are the same. -/
structure KeyOfTyped (typed rest prev prev' : List Byte) : Prop where
  message : firstMessage (typedBuffer typed rest prev) = typed.take 53
  message' : firstMessage (typedBuffer typed rest prev') = typed.take 53
  key : passwordStore (typedBuffer typed rest prev) = passwordStore (typedBuffer typed rest prev')

/-- **When the key depends only on the typed password**: just when both old contents of the
buffer go on as the password does.  A password of 53 characters or more has nothing behind
it. -/
theorem keyOfTyped_iff {typed rest prev prev' : List Byte} (hnl : newline ∉ typed)
    (hnul : (0 : Byte) ∉ typed) (hlen : prev.length = pwSize) (hlen' : prev'.length = pwSize) :
    KeyOfTyped typed rest prev prev' ↔ Continues typed prev ∧ Continues typed prev' := by
  have hprev : firstMessage (typedBuffer typed rest prev) = typed.take 53 ↔ _ :=
    firstMessage_typed_iff hnl hnul hlen
  have hprev' : firstMessage (typedBuffer typed rest prev') = typed.take 53 ↔ _ :=
    firstMessage_typed_iff hnl hnul hlen'
  constructor
  · intro h
    exact ⟨hprev.mp h.message, hprev'.mp h.message'⟩
  · rintro ⟨hcont, hcont'⟩
    have hmessage := hprev.mpr hcont
    have hmessage' := hprev'.mpr hcont'
    refine ⟨hmessage, hmessage', ?_⟩
    rw [passwordStore_eq, passwordStore_eq, hmessage, hmessage']

/-- A password without a character that reads as the end of input needs only a NUL behind
it. -/
theorem continues_iff_nul {typed prev : List Byte} (heof : ∀ ch ∈ typed, readsAsEof ch = false)
    (hshort : typed.length < 53) : Continues typed prev ↔ prev[typed.length]? = some 0 := by
  have huntil : untilEof typed = typed := by
    refine List.takeWhile_eq_self_iff.mpr fun ch hch => ?_
    simp [heof ch hch]
  have hone : ([0] : List Byte).take (53 - typed.length) = [0] :=
    List.take_of_length_le (by simp; omega)
  rw [Continues, huntil, List.drop_length, List.nil_append, hone, ← List.head?_drop]
  cases prev.drop typed.length with
  | nil => simp
  | cons c rest =>
      rw [List.cons_prefix_cons, List.head?_cons, Option.some.injEq, eq_comm]
      exact and_iff_left List.nil_prefix

/-- A buffer of NULs, and one that ends in other characters. -/
theorem keyOfTyped_iff_clean :
    KeyOfTyped [0x61] [] (List.replicate 54 0) (0x62 :: 0 :: List.replicate 52 0x63) :=
  (keyOfTyped_iff (by decide) (by decide) (by decide) (by decide)).mpr (by decide)

/-- The password `a` in a buffer of NULs, and in one that held another word. -/
theorem password_continued :
    firstMessage (typedBuffer [0x61] [] (List.replicate 54 0)) = [0x61] ∧
      firstMessage (typedBuffer [0x61] [] (0x62 :: 0x63 :: List.replicate 52 0)) = [0x61, 0x63] ∧
      ¬ KeyOfTyped [0x61] [] (List.replicate 54 0) (0x62 :: 0x63 :: List.replicate 52 0) := by
  refine ⟨by decide, by decide, fun h => ?_⟩
  exact absurd h.message' (by decide)

end Bispe
