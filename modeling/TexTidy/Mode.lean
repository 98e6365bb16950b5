import TexTidy.Bytes

/-!
# TexTidy.Mode

The two modes of typesetting.
-/

namespace TexTidy

/-- The mode a sequence is typeset in. -/
inductive Mode where
  | text
  | math
  deriving DecidableEq, Repr

/-- The names of modes in a specification. -/
def Mode.ofName? (name : Bytes) : Option Mode :=
  if name = bytes "text" then some .text
  else if name = bytes "math" then some .math
  else none

end TexTidy
