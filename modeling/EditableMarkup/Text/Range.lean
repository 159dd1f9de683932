/-!
# Ranges of code points

A character class beyond the first 128 characters is given as a list of
closed ranges of code points, in ascending order.
-/

namespace EditableMarkup.Text

/-- Whether a code point lies in one of the closed ranges. -/
def inRanges (ranges : List (Nat × Nat)) (codePoint : Nat) : Bool :=
  ranges.any fun range => range.1 ≤ codePoint && codePoint ≤ range.2

end EditableMarkup.Text
