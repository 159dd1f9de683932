/-!
# Faults in literals

A literal that the grammar accepts may still have no value.
-/

namespace EditableMarkup

/-- Why a literal has no value. -/
inductive LiteralFault where
  /-- An escape gives a number beyond the last code point. -/
  | beyondCodePoints
  /-- An escape gives a number that does not fit a signed word of 32 bits. -/
  | beyondWords
  /-- A number has no digits, or digits of another base. -/
  | malformedNumber
  /-- An integer has more digits than can be read or written. -/
  | tooManyDigits
  deriving Repr, DecidableEq

end EditableMarkup
