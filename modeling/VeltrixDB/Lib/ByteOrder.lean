import Mathlib.Data.List.Lex

/-!
# The order of byte strings

Byte strings in lexicographic order, as the comparison of strings in the source
language has it.  The instance is scoped: modules that compare byte strings open
the namespace.
-/

namespace Bytes

/-- Bytes by their value; byte strings then are ordered lexicographically. -/
scoped instance byteOrder : LinearOrder UInt8 where
  le_refl := UInt8.le_refl
  le_trans := fun _ _ _ => UInt8.le_trans
  lt_iff_le_not_ge := fun _ _ => Std.lt_iff_le_and_not_ge
  le_antisymm := fun _ _ => UInt8.le_antisymm
  le_total := UInt8.le_total
  toDecidableLE := inferInstance

/-- Comparing byte strings byte by byte decides their equality. -/
scoped instance byteStringLawful : LawfulBEq (List UInt8) := inferInstance

end Bytes
