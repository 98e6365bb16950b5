import TexTidy.Layout.Doc

/-!
# TexTidy.Layout.Fits

Whether the next line of a layout stays within the columns that are left. Only the text up to the first
line break counts. The measure of a text is a parameter.
-/

namespace TexTidy.Layout

/-- What a `line` or `softLine` becomes. -/
inductive Style where
  /-- It stays on the line. -/
  | flat
  /-- It breaks the line. -/
  | broken
  deriving DecidableEq, Repr

/-- The columns that are left after some text, or the verdict, once the line has ended. -/
inductive Room where
  | left (columns : Int)
  | ended (fits : Bool)
  deriving DecidableEq, Repr

/-- What stands before the first newline of a text. -/
def firstLine (s : Bytes) : Bytes :=
  s.takeWhile (· != Byte.newline)

mutual

/-- The room that is left on the line after a document. With `strict`, a group that can not be flat is
    refused. -/
def spend (measure : Bytes → Nat) (strict : Bool) (style : Style) : Doc → Int → Room
  | .empty, room => .left room
  | .text s, room =>
    if s.hasNewline then .ended (0 ≤ room - measure (firstLine s)) else .left (room - measure s)
  | .line, room => if style = .broken then .ended true else .left (room - 1)
  | .softLine, room => if style = .broken then .ended true else .left room
  | .hardLine, _ => .ended true
  | .concat parts, room => spendAll measure strict style parts room
  | .indent body, room => spend measure strict style body room
  | .group body, room =>
    if body.hard then
      if strict then .ended false else spend measure strict .broken body room
    else spend measure strict style body room
  | .fill parts, room => spendAll measure strict style parts room

/-- The room that is left on the line after several documents. A line that is too long has ended. -/
def spendAll (measure : Bytes → Nat) (strict : Bool) (style : Style) : List Doc → Int → Room
  | [], room => .left room
  | d :: ds, room =>
    if room < 0 then .ended false
    else match spend measure strict style d room with
      | .ended fits => .ended fits
      | .left room => spendAll measure strict style ds room

end

/-- Documents that are still to be rendered, in order, each run of them in its own style. -/
abbrev Pending := List (Style × List Doc)

/-- Whether the pending documents stay within the room up to the first line break. -/
def fits (measure : Bytes → Nat) (strict : Bool) : Pending → Int → Bool
  | [], room => 0 ≤ room
  | (style, docs) :: pending, room =>
    match spendAll measure strict style docs room with
    | .ended fits => fits
    | .left room => fits measure strict pending room

end TexTidy.Layout
