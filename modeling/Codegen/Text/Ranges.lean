/-
  Classes of characters given by ranges of their numbers.
-/

namespace Codegen.Text

/-- Is the number in one of the ranges? -/
def inRanges (ranges : List (Nat × Nat)) (n : Nat) : Bool :=
  ranges.any fun (lo, hi) => decide (lo ≤ n) && decide (n ≤ hi)

end Codegen.Text
