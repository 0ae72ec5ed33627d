/-!
# Tables of code points

Properties of characters that no formula gives are written as tables: inclusive ranges of code
points, in ascending order.
-/

namespace ShiftReduce.Text

abbrev Table := List (Nat × Nat)

namespace Table

/-- Whether one of the ranges holds the character. -/
def has (t : Table) (c : Char) : Bool :=
  t.any fun (first, last) ↦ first ≤ c.toNat && c.toNat ≤ last

end Table

end ShiftReduce.Text
