/-!
# TexTidy.Text.Ranges

A property of characters is a list of closed ranges of code points.
-/

namespace TexTidy.Text

/-- Closed ranges of code points. -/
abbrev Ranges := Array (Nat × Nat)

/-- Whether a code point lies in one of the ranges. -/
def Ranges.has (r : Ranges) (n : Nat) : Bool :=
  r.any fun (lo, hi) => lo ≤ n && n ≤ hi

end TexTidy.Text
