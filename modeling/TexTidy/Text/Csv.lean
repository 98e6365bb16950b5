import TexTidy.Bytes

/-!
# TexTidy.Text.Csv

A record of fields with commas between them. A field in double quotes may hold commas, line breaks and
quotes, which are written twice there. A record ends with its line.
-/

namespace TexTidy.Text.Csv

/-- Why a text is no record. -/
inductive Cause where
  | bareQuote
  | quote
  | empty
  deriving DecidableEq, Repr

/-- A cause and where it was met; lines and columns are counted from one. -/
structure Error where
  startLine : Nat
  line : Nat
  column : Nat
  cause : Cause
  deriving DecidableEq, Repr

/-- The full text of the error. -/
def Error.message (e : Error) : Bytes :=
  let place := bytes "parse error on line " ++ decimal e.line ++ bytes ", column " ++
    decimal e.column ++ bytes ": "
  let record := if e.startLine = e.line then [] else
    bytes "record on line " ++ decimal e.startLine ++ bytes "; "
  match e.cause with
  | .bareQuote => record ++ place ++ bytes "bare \" in non-quoted field"
  | .quote => record ++ place ++ bytes "extraneous or missing \" in quoted-field"
  | .empty => bytes "EOF"

/-- Where the reader stands in a record. -/
inductive State where
  /-- At the start of a field. -/
  | start
  /-- In a field without quotes. -/
  | plain
  /-- In a field with quotes. -/
  | inQuotes
  /-- Behind a quote in a field with quotes, which ends the field or is the first of two. -/
  | afterQuote
  deriving DecidableEq, Repr

/-- Reads the fields of a record that begins on line `first`; `line` and `col` are the place of the next
    byte, and `field` is what was read of the current field. A newline that nothing follows begins no
    new line. -/
def scan (first line col : Nat) (state : State) (field : Bytes) :
    Bytes → Except Error (List Bytes)
  | [] => if state = .inQuotes then .error ⟨first, line, col, .quote⟩ else .ok [field]
  | c :: s =>
    match state with
    | .inQuotes =>
      if c == Byte.quote then scan first line (col + 1) .afterQuote field s
      else if c == Byte.newline && !s.isEmpty then
        scan first (line + 1) 1 .inQuotes (field ++ [c]) s
      else scan first line (col + 1) .inQuotes (field ++ [c]) s
    | .afterQuote =>
      if c == Byte.quote then scan first line (col + 1) .inQuotes (field ++ [c]) s
      else if c == Byte.comma then (scan first line (col + 1) .start [] s).map (field :: ·)
      else if c == Byte.newline then .ok [field]
      else .error ⟨first, line, col - 1, .quote⟩
    | _ =>
      if c == Byte.comma then (scan first line (col + 1) .start [] s).map (field :: ·)
      else if c == Byte.newline then .ok [field]
      else if c == Byte.quote then
        if state = .start then scan first line (col + 1) .inQuotes [] s
        else .error ⟨first, line, col, .bareQuote⟩
      else scan first line (col + 1) .plain (field ++ [c]) s

/-- A text with newlines as its only line breaks. A carriage return at the very end is dropped. -/
def normalizeBreaks : Bytes → Bytes
  | [] => []
  | [c] => if c == Byte.carriageReturn then [] else [c]
  | Byte.carriageReturn :: Byte.newline :: s => Byte.newline :: normalizeBreaks s
  | c :: s => c :: normalizeBreaks s

/-- The fields of the first record of a text. An empty text has no field, and empty lines do not
    count. -/
def fields (s : Bytes) : Except Error (List Bytes) :=
  if s.isEmpty then .ok []
  else
    let text := normalizeBreaks s
    let first := (text.takeWhile (· == Byte.newline)).length + 1
    match text.dropWhile (· == Byte.newline) with
    | [] => .error ⟨first, first, 1, .empty⟩
    | record => scan first first 1 .start [] record

end TexTidy.Text.Csv
