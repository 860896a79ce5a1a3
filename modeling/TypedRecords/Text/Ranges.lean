/-! # Ranges of characters

Properties of characters are lists of inclusive code point ranges in ascending order.
-/

namespace TypedRecords.Text

/-- Whether one of the ranges holds a code point. -/
def inRanges (ranges : List (Nat × Nat)) (code : Nat) : Bool :=
  ranges.any fun range => range.1 ≤ code && code ≤ range.2

end TypedRecords.Text
