/-!
# Character classes given by ranges of code points

A class is a list of inclusive ranges in increasing order, so that looking for a
code point may stop at the first range that begins above it.
-/

namespace LuaTree.Text

/-- Whether `n` lies in one of the ranges, which are in increasing order. -/
def inRanges (n : Nat) : List (Nat × Nat) → Bool
  | [] => false
  | (low, high) :: rest => low ≤ n && (n ≤ high || inRanges n rest)

end LuaTree.Text
