import TexTidy.Text.Quoted

/-!
# TexTidy.Signature

A signature says which arguments a command or an environment takes: `m` for a mandatory one, `o` for an
optional one in brackets, `O{default}` for the same with a default, `s` for an optional star. Blanks
between the letters mean nothing.
-/

namespace TexTidy

/-- The kind of an argument. -/
inductive ArgKind where
  | mandatory
  | optional
  | star
  deriving DecidableEq, Repr

namespace ArgKind

/-- What opens an argument of this kind. -/
def opening : ArgKind → Bytes
  | .mandatory => [Byte.openBrace]
  | .optional => [Byte.openBracket]
  | .star => []

/-- What closes an argument of this kind. -/
def closing : ArgKind → Bytes
  | .mandatory => [Byte.closeBrace]
  | .optional => [Byte.closeBracket]
  | .star => []

end ArgKind

namespace Signature

/-- Why a text is no signature. -/
inductive Cause where
  | defaultExpected
  | defaultUnclosed
  | unsupported (letter : UInt8)
  deriving DecidableEq, Repr

/-- A text that is no signature, and why. -/
structure Error where
  signature : Bytes
  cause : Cause
  deriving DecidableEq, Repr

/-- The wording of a cause. A letter is shown as the character of its value. -/
def Cause.message : Cause → Bytes
  | .defaultExpected => bytes "O must be followed by \x7bdefault\x7d"
  | .defaultUnclosed => bytes "default value of O is not closed"
  | .unsupported c =>
    bytes "unsupported argument type " ++ Text.quotedChar (Char.ofNat c.toNat)

/-- The full text of the error. -/
def Error.message (e : Error) : Bytes :=
  bytes "signature " ++ Text.quoted e.signature ++ bytes ": " ++ e.cause.message

/-- A blank between the letters of a signature. -/
def isGap (c : UInt8) : Bool :=
  c == Byte.space || c == Byte.tab || c == Byte.newline

/-- Reads the letters of a signature; `inDefault` while a default value is open. -/
def items (inDefault : Bool) : Bytes → Except Cause (List ArgKind)
  | [] => if inDefault then .error .defaultUnclosed else .ok []
  | c :: s =>
    if inDefault then items (c != Byte.closeBrace) s
    else if isGap c then items false s
    else if c == 0x6D then (items false s).map (.mandatory :: ·)
    else if c == 0x6F then (items false s).map (.optional :: ·)
    else if c == 0x73 then (items false s).map (.star :: ·)
    else if c == 0x4F then
      match s with
      | Byte.openBrace :: rest => (items true rest).map (.optional :: ·)
      | _ => .error .defaultExpected
    else .error (.unsupported c)

/-- The argument kinds that a signature lists. -/
def parse (s : Bytes) : Except Error (List ArgKind) :=
  (items false s).mapError fun cause => ⟨s, cause⟩

end Signature

end TexTidy
