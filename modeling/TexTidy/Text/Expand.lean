import TexTidy.Bytes

/-!
# TexTidy.Text.Expand

Variables in a text: `$NAME` and `${NAME}` stand for the value of a variable. A dollar sign that no
name follows is kept, and one with braces that hold no name is dropped together with them.
-/

namespace TexTidy.Text

/-- A byte of a variable's name. -/
def isNameByte (c : UInt8) : Bool :=
  isLetter c || isDigit c || c == Byte.underscore

/-- The names of one byte that are no letters. -/
def isSpecialName (c : UInt8) : Bool :=
  isDigit c || c == Byte.star || c == Byte.hash || c == Byte.dollar || c == 0x40 || c == 0x21 ||
    c == 0x3F || c == Byte.minus

/-- What follows a dollar sign. -/
inductive Reference where
  /-- A name, and the number of bytes it takes. -/
  | name (s : Bytes) (size : Nat)
  /-- Braces without a name, and the number of bytes to drop. -/
  | bad (size : Nat)
  /-- No name at all. -/
  | none

/-- The reference after a dollar sign. -/
def reference : Bytes → Reference
  | [] => .none
  | c :: s =>
    if c == Byte.openBrace then
      match Bytes.cut [Byte.closeBrace] s with
      | some (name, _) => if name.isEmpty then .bad 2 else .name name (name.length + 2)
      | Option.none => .bad 1
    else if isSpecialName c then .name [c] 1
    else
      let name := (c :: s).takeWhile isNameByte
      if name.isEmpty then .none else .name name name.length

/-- A part of a text with variables. -/
inductive Part where
  | byte (c : UInt8)
  | reference (name : Bytes)

/-- The parts of a text; the first `skip` bytes belong to a reference that is already done. -/
def partsFrom : Nat → Bytes → List Part
  | _, [] => []
  | skip + 1, _ :: s => partsFrom skip s
  | 0, c :: s =>
    if c == Byte.dollar && !s.isEmpty then
      match reference s with
      | .name name size => .reference name :: partsFrom size s
      | .bad size => partsFrom size s
      | .none => .byte c :: partsFrom 0 s
    else .byte c :: partsFrom 0 s

/-- The names of the variables in a text. -/
def variableNames (s : Bytes) : List Bytes :=
  (partsFrom 0 s).filterMap fun
    | .reference name => some name
    | .byte _ => Option.none

/-- A text with the variables replaced by their values. -/
def expand (value : Bytes → Bytes) (s : Bytes) : Bytes :=
  (partsFrom 0 s).flatMap fun
    | .reference name => value name
    | .byte c => [c]

end TexTidy.Text
