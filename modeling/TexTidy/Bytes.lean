/-!
# TexTidy.Bytes

Text is a list of bytes. A document may hold bytes that form no character, and every position in it is
a byte offset, so bytes are what the library keeps; characters are a view of them.

The module names the bytes that mean something in a document, sorts bytes into classes, and cuts texts
at a marker.
-/

namespace TexTidy

/-- A text, valid in some encoding or not. -/
abbrev Bytes := List UInt8

/-- The bytes of a literal. -/
def bytes (s : String) : Bytes :=
  s.toByteArray.data.toList

/-- A number in decimal digits. -/
def decimal (n : Nat) : Bytes :=
  bytes (toString n)

/-! ## Bytes with a meaning -/

namespace Byte

@[match_pattern] abbrev tab : UInt8 := 0x09
@[match_pattern] abbrev newline : UInt8 := 0x0A
@[match_pattern] abbrev carriageReturn : UInt8 := 0x0D
@[match_pattern] abbrev space : UInt8 := 0x20
@[match_pattern] abbrev quote : UInt8 := 0x22
@[match_pattern] abbrev hash : UInt8 := 0x23
@[match_pattern] abbrev dollar : UInt8 := 0x24
@[match_pattern] abbrev percent : UInt8 := 0x25
@[match_pattern] abbrev ampersand : UInt8 := 0x26
@[match_pattern] abbrev apostrophe : UInt8 := 0x27
@[match_pattern] abbrev star : UInt8 := 0x2A
@[match_pattern] abbrev plus : UInt8 := 0x2B
@[match_pattern] abbrev comma : UInt8 := 0x2C
@[match_pattern] abbrev minus : UInt8 := 0x2D
@[match_pattern] abbrev dot : UInt8 := 0x2E
@[match_pattern] abbrev slash : UInt8 := 0x2F
@[match_pattern] abbrev colon : UInt8 := 0x3A
@[match_pattern] abbrev equals : UInt8 := 0x3D
@[match_pattern] abbrev openBracket : UInt8 := 0x5B
@[match_pattern] abbrev backslash : UInt8 := 0x5C
@[match_pattern] abbrev closeBracket : UInt8 := 0x5D
@[match_pattern] abbrev caret : UInt8 := 0x5E
@[match_pattern] abbrev underscore : UInt8 := 0x5F
@[match_pattern] abbrev openBrace : UInt8 := 0x7B
@[match_pattern] abbrev bar : UInt8 := 0x7C
@[match_pattern] abbrev closeBrace : UInt8 := 0x7D
@[match_pattern] abbrev tilde : UInt8 := 0x7E

end Byte

/-! ## Classes of bytes -/

/-- An ASCII letter; letters make up the name of a control word. -/
def isLetter (c : UInt8) : Bool :=
  (0x61 ≤ c && c ≤ 0x7A) || (0x41 ≤ c && c ≤ 0x5A)

/-- An ASCII digit. -/
def isDigit (c : UInt8) : Bool :=
  0x30 ≤ c && c ≤ 0x39

/-- White space of a document: space, newline, tab and carriage return. -/
def isBlank (c : UInt8) : Bool :=
  c == Byte.space || c == Byte.newline || c == Byte.tab || c == Byte.carriageReturn

/-- The blanks that stay on a line: space and tab. -/
def isPad (c : UInt8) : Bool :=
  c == Byte.space || c == Byte.tab

/-- The blanks that a line loses at its end: space, tab and carriage return. -/
def isLineBlank (c : UInt8) : Bool :=
  isPad c || c == Byte.carriageReturn

/-- The bytes with a meaning of their own, which end a run of text. -/
def isActive (c : UInt8) : Bool :=
  c == Byte.backslash || c == Byte.openBrace || c == Byte.closeBrace || c == Byte.openBracket ||
  c == Byte.closeBracket || c == Byte.dollar || c == Byte.percent || c == Byte.ampersand ||
  c == Byte.hash || c == Byte.caret || c == Byte.underscore || c == Byte.tilde

namespace Bytes

/-! ## Cutting and trimming -/

/-- Cuts a text at the first occurrence of a marker: what stands before it and what stands after it. -/
def cut (marker : Bytes) : Bytes → Option (Bytes × Bytes)
  | [] => if marker.isEmpty then some ([], []) else none
  | c :: s =>
    if marker.isPrefixOf (c :: s) then some ([], (c :: s).drop marker.length)
    else (cut marker s).map fun (before, after) => (c :: before, after)

/-- Removes the bytes of a class from the end of a text. -/
def trimEnd (drop : UInt8 → Bool) (s : Bytes) : Bytes :=
  (s.reverse.dropWhile drop).reverse

/-- Whether a text holds a newline. -/
def hasNewline (s : Bytes) : Bool :=
  s.contains Byte.newline

/-- `n` spaces. -/
def spaces (n : Nat) : Bytes :=
  List.replicate n Byte.space

/-- Texts joined with a separator between them. -/
def join (sep : Bytes) (texts : List Bytes) : Bytes :=
  List.flatten (texts.intersperse sep)

end Bytes

end TexTidy
