import TexTidy.Text.Printable
import TexTidy.Text.Utf8

/-!
# TexTidy.Text.Quoted

Texts inside messages. A quoted text shows printable characters as they are and everything else as an
escape, so that a message is readable whatever bytes it is about. Nothing is lost: a byte that belongs
to no character is shown by its value.
-/

namespace TexTidy.Text

/-- A number in lower-case hexadecimal digits, with leading zeros up to `width` digits. -/
def hexDigits (width n : Nat) : Bytes :=
  let digits := (Nat.toDigits 16 n).map fun c => UInt8.ofNat c.toNat
  List.replicate (width - digits.length) 0x30 ++ digits

/-- The letter after the backslash in the escape of a control character that has a name. -/
def escapeLetter? (c : Char) : Option UInt8 :=
  match c.toNat with
  | 0x07 => some 0x61
  | 0x08 => some 0x62
  | 0x09 => some 0x74
  | 0x0A => some 0x6E
  | 0x0B => some 0x76
  | 0x0C => some 0x66
  | 0x0D => some 0x72
  | _ => none

/-- A character as it stands between quotes `q`. -/
def escapeChar (q : UInt8) (c : Char) : Bytes :=
  if c.toNat = q.toNat ∨ c = '\\' then Byte.backslash :: Utf8.encode c
  else if isPrintable c then Utf8.encode c
  else match escapeLetter? c with
    | some letter => [Byte.backslash, letter]
    | none =>
      if c.toNat < 0x20 ∨ c.toNat = 0x7F then bytes "\\x" ++ hexDigits 2 c.toNat
      else if c.toNat < 0x10000 then bytes "\\u" ++ hexDigits 4 c.toNat
      else bytes "\\U" ++ hexDigits 8 c.toNat

/-- A text in double quotes. -/
def quoted (s : Bytes) : Bytes :=
  let piece : Option Char × Bytes → Bytes
    | (some c, _) => escapeChar Byte.quote c
    | (none, raw) => raw.flatMap fun b => bytes "\\x" ++ hexDigits 2 b.toNat
  Byte.quote :: (Utf8.pieces s).flatMap piece ++ [Byte.quote]

/-- A character in single quotes. -/
def quotedChar (c : Char) : Bytes :=
  Byte.apostrophe :: escapeChar Byte.apostrophe c ++ [Byte.apostrophe]

end TexTidy.Text
