/-!
# Sets of characters given by their boundaries

Character properties come as a few hundred ranges of code points. A set is kept
as the increasing array of the code points at which membership changes, so one
rule decides membership: count the boundaries passed so far.
-/

namespace Monkey.Text

/-- A set of characters. The first boundary opens a range, the second is the
first code point after it, and so on. -/
structure CharSet where
  bounds : Array Nat

namespace CharSet

/-- A character belongs exactly when an odd number of boundaries lie at or
below it. -/
def contains (s : CharSet) (c : Char) : Bool :=
  s.bounds.countP (· ≤ c.toNat) % 2 == 1

end CharSet

end Monkey.Text
