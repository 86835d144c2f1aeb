import Bispe.Backend.Lines

/-!
# The words a segment stands for

A stack is in memory but for the line that is held in a register.  `Holds` says
which words of a plain array are found there; the lemmas below follow it through
the ways a line is changed, written back and replaced.

## Main definitions

* `wordAt` — the word at an address, of a memory given by lines.
* `Holds` — a memory with one line in a register holds an array of cells.
* `Stored` — a memory holds an array of cells, no line being in a register.
-/

namespace Bispe

open Chaining

/-- The word at address `p` of a memory of lines. -/
def wordAt (v : ℤ → Line) (p : ℤ) : Word := v (p / 16) (lane p)

theorem wordAt_congr {v v' : ℤ → Line} {p : ℤ} (h : v (p / 16) = v' (p / 16)) :
    wordAt v p = wordAt v' p := by rw [wordAt, wordAt, h]

/-- The cells of an array at `bp`, up to position `top` and where they are defined,
are the words of `mem` with line `k` replaced by `x`. -/
def Holds (b : Build) (mem : ℤ → Word) (k : ℤ) (x : Line) (bp : ℤ) (top : ℕ)
    (cells : ℕ → Option Word) : Prop :=
  ∀ i ≤ top, ∀ w, cells i = some w → wordAt (b.mode.held (lines mem) k x) (bp + 4 * i) = w

/-- The cells of an array at `bp` are in memory. -/
def Stored (b : Build) (mem : ℤ → Word) (bp : ℤ) (top : ℕ) (cells : ℕ → Option Word) : Prop :=
  ∀ i ≤ top, ∀ w, cells i = some w → wordAt (b.mode.decode (lines mem)) (bp + 4 * i) = w

namespace Stored

variable {b : Build} {mem mem' : ℤ → Word} {bp : ℤ} {top : ℕ} {cells : ℕ → Option Word}

/-- Any line may be loaded. -/
theorem holds (h : Stored b mem bp top cells) (k : ℤ) :
    Holds b mem k (b.mode.decode (lines mem) k) bp top cells := by
  unfold Holds
  rw [b.mode.held_decode]
  exact h

theorem lower {top' : ℕ} (h : Stored b mem bp top cells) (hle : top' ≤ top) :
    Stored b mem bp top' cells := fun i hi => h i (by omega)

theorem frame (h : Stored b mem bp top cells) (lo hi : ℤ)
    (hmem : ∀ j, j < lo ∨ hi < j → lines mem' j = lines mem j)
    (hd : bp + 4 * top < 16 * lo ∨ 16 * hi + 16 ≤ bp - 16) (hbp : 16 ∣ bp) :
    Stored b mem' bp top cells := by
  intro i hi w hw
  rw [← h i hi w hw]
  exact wordAt_congr (b.mode.decode_congr (hmem _ (by omega)) (hmem _ (by omega)))

end Stored

namespace Holds

variable {b : Build} {mem mem' : ℤ → Word} {k k' : ℤ} {x x' : Line} {bp : ℤ} {top top' : ℕ}
  {cells cells' : ℕ → Option Word}

/-- Replace memory, register and array together, where they agree. -/
theorem mono (h : Holds b mem k x bp top cells)
    (hcells : ∀ i ≤ top', ∀ w, cells' i = some w → i ≤ top ∧ cells i = some w)
    (hview : ∀ i ≤ top', i ≤ top → b.mode.held (lines mem') k' x' ((bp + 4 * i) / 16) =
      b.mode.held (lines mem) k x ((bp + 4 * i) / 16)) :
    Holds b mem' k' x' bp top' cells' := by
  intro i hi w hw
  obtain ⟨hi', hw'⟩ := hcells i hi w hw
  rw [wordAt_congr (hview i hi hi')]
  exact h i hi' w hw'

/-- Lines elsewhere do not matter. -/
theorem frame (h : Holds b mem k x bp top cells) (lo hi : ℤ)
    (hmem : ∀ j, j < lo ∨ hi < j → lines mem' j = lines mem j)
    (hd : bp + 4 * top < 16 * lo ∨ 16 * hi + 16 ≤ bp - 16) (hbp : 16 ∣ bp) :
    Holds b mem' k x bp top cells := by
  refine h.mono (fun i hi w hw => ⟨hi, hw⟩) fun i hi _ => ?_
  exact b.mode.held_congr k x (hmem _ (by omega)) (hmem _ (by omega))

/-- A lower top, with the same line in the register. -/
theorem lower (h : Holds b mem k x bp top cells) (hle : top' ≤ top) :
    Holds b mem k x bp top' cells :=
  h.mono (fun i hi w hw => ⟨by omega, hw⟩) fun _ _ _ => rfl

/-- Write the word at address `bp + 4 * n` of the line in the register. -/
theorem insert (h : Holds b mem k x bp top cells) {n : ℕ} (hbp : 4 ∣ bp)
    (hk : k = (bp + 4 * n) / 16) (w : Word) :
    Holds b mem k (Function.update x (lane (bp + 4 * n)) w) bp top
      (Function.update cells n (some w)) := by
  intro i hi v hv
  by_cases hin : i = n
  · subst hin
    obtain rfl : w = v := by simpa using hv
    rw [wordAt, ← hk, b.mode.held_self, Function.update_self]
  · rw [Function.update_of_ne hin] at hv
    rw [← h i hi v hv]
    by_cases hline : (bp + 4 * (i : ℤ)) / 16 = k
    · have hlane : lane (bp + 4 * (i : ℤ)) ≠ lane (bp + 4 * (n : ℤ)) := by
        intro heq
        rw [lane_eq_iff] at heq
        simp only [lane] at heq
        omega
      rw [wordAt, wordAt, hline, b.mode.held_self, b.mode.held_self,
        Function.update_of_ne hlane]
    · rw [wordAt, wordAt, b.mode.held_of_ne _ _ hline, b.mode.held_of_ne _ _ hline]

/-- The word that is read from the register. -/
theorem extract (h : Holds b mem k x bp top cells) {n : ℕ} (hn : n ≤ top)
    (hk : k = (bp + 4 * n) / 16) {w : Word} (hw : cells n = some w) :
    x (lane (bp + 4 * n)) = w := by
  have := h n hn w hw
  rwa [wordAt, ← hk, b.mode.held_self] at this

/-- Write the register back and go on to the next line without loading it. -/
theorem advance (h : Holds b mem k x bp top cells) (hb : b.Inverts)
    (hk : k = (bp + 4 * top) / 16) (hmem : lines mem' = b.mode.write (lines mem) k x)
    (hcells : ∀ i ≤ top', ∀ w, cells' i = some w → i ≤ top ∧ cells i = some w) :
    Holds b mem' (k + 1) x bp top' cells' := by
  refine h.mono hcells fun i _ hi => ?_
  have hne : (bp + 4 * (i : ℤ)) / 16 ≠ k + 1 := by omega
  rw [hmem, b.mode.held_of_ne _ _ hne, Mode.decode_write hb.lawful _ _ _ hne]

/-- Drop the register and load another line at or below the new top. -/
theorem drop (h : Holds b mem k x bp top cells) (hle : top' ≤ top)
    (hlt : (bp + 4 * top') / 16 < k) :
    Holds b mem k' (b.mode.decode (lines mem) k') bp top' cells := by
  refine h.mono (fun i hi w hw => ⟨by omega, hw⟩) fun i hi _ => ?_
  rw [b.mode.held_decode, b.mode.held_of_ne _ _ (by omega)]

/-- Write the register back and re-encrypt up to the top. -/
theorem stored (h : Holds b mem k x bp top cells) (hb : b.Inverts) {n : ℕ}
    (hn : (bp + 4 * top) / 16 = k + n)
    (hmem : lines mem' = b.mode.rechain n (b.mode.link x (lines mem (k - 1))) k (lines mem)) :
    Stored b mem' bp top cells := by
  intro i hi w hw
  rw [← h i hi w hw]
  refine wordAt_congr ?_
  rw [hmem, Mode.decode_rechain_link hb.lawful _ _ _ _ (by omega)]

end Holds
end Bispe
