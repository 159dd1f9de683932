/-!
# Arrivals

The ways of reading markup differ where a comment can be skipped or be text.
They are followed side by side, and two of them can come to the same lexeme,
or complete a child at the same place.  Which of them is kept depends on the
order in which they arrive there.

In front of a lexeme a chain of runs may be skipped: each run starts where the
one before it ended, the first one at the place that the lexeme is read from,
and the last one ends at the lexeme.  Where two chains meet, the way whose last
run starts further ahead arrives first, and a way that skips nothing arrives
last.  Of the children that are completed at one place, the one that arrives
last is handled first.
-/

namespace EditableMarkup.Grammar

/-- How far ahead of a lexeme the runs start that are skipped in front of it, the last run first. -/
abbrev Trail := List Nat

namespace Trail

/-- The trail of a lexeme behind a gap, given the numbers of characters that may be skipped from the
place it is read from. -/
def of (gaps : List Nat) (gap : Nat) : Trail :=
  ((gaps.filter (· < gap)).map (gap - ·)).reverse

/-- Whether a way to a lexeme arrives there later than another one. -/
def later : Trail → Trail → Bool
  | _, [] => false
  | [], _ :: _ => true
  | ahead :: rest, other :: others =>
    if ahead = other then later rest others else ahead < other

end Trail

/-- How a child was come to. It was read from the place `used` characters ahead of its end, and its
first lexeme starts `ahead` characters ahead of its end, with `opening` as its trail. A child with a
closing tag has the trail of that tag as `closing`, and the arrivals of its own children, the last
of them first, as `inside`. -/
inductive Arrival where
  | child (used ahead : Nat) (opening closing : Trail) (inside : List Arrival)

namespace Arrival

/-- How far ahead of its end a child was read from. -/
def used : Arrival → Nat
  | child used .. => used

mutual

/-- Whether a child arrives at its end later than another one that was read from another place: the
trails of their closing tags decide; or, for elements that share their last children, the order in
which their own children were handled; or where the children start, and how they were come to. -/
def later : Arrival → Arrival → Bool
  | child _ ahead opening closing inside, child _ ahead' opening' closing' inside' =>
    if closing ≠ closing' then closing.later closing'
    else if ahead = ahead' then opening.later opening'
    else if inside.isEmpty || inside'.isEmpty then ahead < ahead'
    else !handledFirst inside inside'

/-- Whether children, the last one first, are handled before others that end at the same place: the
later of the two last children is handled first, and a child that both share turns the order of
those in front of it round. -/
def handledFirst : List Arrival → List Arrival → Bool
  | last :: rest, last' :: rest' =>
    if last.used = last'.used then !handledFirst rest rest' else last.later last'
  | _, _ => false

end

end Arrival

end EditableMarkup.Grammar
