import TexTidy.Text.Ranges
import TexTidy.Text.Utf8

/-!
# TexTidy.Text.Space

White space in the sense of Unicode. Documents themselves only know ASCII blanks; this wider class
matters where a text is read as a list of fields.
-/

namespace TexTidy.Text

/-- Code points that are white space. -/
def spaceRanges : Ranges := #[
  (0x0009, 0x000D), (0x0020, 0x0020), (0x0085, 0x0085), (0x00A0, 0x00A0), (0x1680, 0x1680),
  (0x2000, 0x200A), (0x2028, 0x2029), (0x202F, 0x202F), (0x205F, 0x205F), (0x3000, 0x3000)]

/-- Whether a character is white space. -/
def isSpaceChar (c : Char) : Bool :=
  spaceRanges.has c.toNat

/-- A text without its white space. -/
def removeSpaces (s : Bytes) : Bytes :=
  (Utf8.pieces s).flatMap fun (c, raw) => if c.any isSpaceChar then [] else raw

end TexTidy.Text
