import TexTidy.Bytes

/-!
# TexTidy.Text.LineEnd

Blanks at the end of a line mean nothing and are removed, with one exception: a backslash and the blank
right after it are a command, the control space. Backslashes pair up from the left, so the blank belongs
to a command exactly if an odd number of them stands before it.

A writer keeps what it has written with the last byte first, so the rule is stated for such texts.
-/

namespace TexTidy.Text

/-- Whether a text, given from its last byte on, ends in an odd number of backslashes. -/
def endsEscaped (rev : Bytes) : Bool :=
  (rev.takeWhile (· == Byte.backslash)).length % 2 == 1

/-- Removes blanks from the end of a text that is given from its last byte on. The blank of a control
    space is kept. -/
def stripReversed (blank : UInt8 → Bool) (rev : Bytes) : Bytes :=
  let body := rev.dropWhile blank
  match (rev.takeWhile blank).getLast? with
  | none => rev
  | some b => if endsEscaped body then b :: body else body

/-- Removes blanks from the end of a text, but never the blank of a control space. -/
def stripEnd (blank : UInt8 → Bool) (s : Bytes) : Bytes :=
  (stripReversed blank s.reverse).reverse

/-- Strips the end of a line of a layout, where spaces and tabs are blanks. -/
abbrev stripLine (s : Bytes) : Bytes := stripEnd isPad s

/-- Strips the end of a line of a table, where spaces are blanks. -/
abbrev stripPadding (s : Bytes) : Bytes := stripEnd (· == Byte.space) s

end TexTidy.Text
