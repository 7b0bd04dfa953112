import Mathlib.Algebra.Ring.Nat
import Mathlib.Data.Fin.Basic

/-!
# Numerals of `Fin`

A numeral of `Fin n` carries the fact that `n` is not zero. These instances give that fact a name,
so that a definition with such numerals is the same term in every file. They are used where the
namespace is open.
-/

namespace Safrn.Base.Numerals

scoped instance (priority := 1100) neZero_succ (k : ℕ) : NeZero (k + 1) := ⟨k.succ_ne_zero⟩

scoped instance (priority := 1200) neZero_two : NeZero 2 := ⟨by decide⟩

scoped instance (priority := 1200) neZero_four : NeZero 4 := ⟨by decide⟩

end Safrn.Base.Numerals
