import Mathlib.Algebra.GroupWithZero.Nat

/-!
# Blocks

The sizes of the index types `Fin n` that blocks, registers and keys use.  A named
instance for each size keeps the numerals of these types small terms.
-/

namespace Blocks

instance neZero4 : NeZero 4 := ⟨by decide⟩

instance neZero16 : NeZero 16 := ⟨by decide⟩

instance neZero32 : NeZero 32 := ⟨by decide⟩

end Blocks
