import TexTidy.Text.Quoted
import TexTidy.Text.Space

/-!
# TexTidy.Cli.Log

Records of a run, one to a line: attributes with their values. A value is quoted if it could not be
told apart from what is around it.
-/

namespace TexTidy.Cli

/-- What is worth a record. -/
inductive Event where
  | configLoaded (path : Bytes)
  | documentFormatted (nodes warnings : Nat)
  | fileFormatted (path : Bytes) (changed : Bool)
  deriving DecidableEq, Repr

namespace Log

/-- Whether a byte of ASCII makes quotes necessary. -/
def isDelicate (b : UInt8) : Bool :=
  b ≤ Byte.space || b == Byte.equals || b == Byte.quote

/-- Whether a value has to be quoted. -/
def needsQuotes (s : Bytes) : Bool :=
  s.isEmpty || (Utf8.pieces s).any fun
    | (some c, raw) =>
      if c.toNat < 0x80 then raw.any isDelicate
      else c == Utf8.replacement || Text.isSpaceChar c || !Text.isPrintable c
    | (none, _) => true

/-- A value as it stands in a record. -/
def value (s : Bytes) : Bytes :=
  if needsQuotes s then Text.quoted s else s

/-- An attribute with its value. -/
def pair (name : String) (s : Bytes) : Bytes :=
  bytes name ++ Byte.equals :: value s

/-- A truth value. -/
def truth (b : Bool) : Bytes :=
  if b then bytes "true" else bytes "false"

/-- The attributes of an event, its message first. -/
def pairs : Event → List Bytes
  | .configLoaded path => [pair "msg" (bytes "config loaded"), pair "path" path]
  | .documentFormatted nodes warnings =>
    [pair "msg" (bytes "document formatted"), pair "nodes" (decimal nodes),
      pair "warnings" (decimal warnings)]
  | .fileFormatted path changed =>
    [pair "msg" (bytes "file formatted"), pair "path" path,
      pair "changed" (truth changed)]

/-- The record of an event. -/
def record (e : Event) : Bytes :=
  Bytes.join [Byte.space] (pair "level" (bytes "DEBUG") :: pairs e) ++ [Byte.newline]

end Log

end TexTidy.Cli
