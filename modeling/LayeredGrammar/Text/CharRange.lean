/-!
# Sets of characters as ranges of code points

A set is a list of inclusive ranges in increasing order. Membership walks the list and stops at
the first range that begins past the code point, so the low code points are decided at once.
-/

namespace LayeredGrammar.Text

/-- Inclusive ranges of code points, in increasing order. -/
abbrev CharRanges := List (Nat × Nat)

/-- Whether a code point lies in one of the ranges. -/
def CharRanges.has : CharRanges → Nat → Bool
  | [], _ => false
  | (lo, hi) :: rest, n => if n < lo then false else if n ≤ hi then true else CharRanges.has rest n

end LayeredGrammar.Text
