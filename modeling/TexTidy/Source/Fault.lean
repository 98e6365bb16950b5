import TexTidy.Text.Quoted

/-!
# TexTidy.Source.Fault

Why a source is not a document. A fault is a cause and the offset it is about; line and column follow
from the offset. All wording is in `Cause.message`.
-/

namespace TexTidy

/-- What is wrong with a source. -/
inductive Cause where
  | trailingEscape
  | nameExpected
  | nameUnclosed
  | nameInvalid (name : Bytes)
  | delimiterExpected
  | delimiterInvalid (c : Char)
  | verbUnclosed
  | unmatchedBrace
  | unexpectedEnd (name : Bytes)
  | unexpectedCommand (name : Bytes)
  | optionalUnclosed
  | groupUnclosed
  | verbatimUnclosed (name : Bytes)
  | environmentUnclosed (name : Bytes)
  | environmentMismatch (found opened : Bytes)
  | inlineUnclosed
  | displayUnclosed
  | tooDeep
  deriving DecidableEq, Repr

/-- The wording of a cause. -/
def Cause.message : Cause → Bytes
  | .trailingEscape => bytes "invalid trailing escape"
  | .nameExpected => bytes "environment name is expected"
  | .nameUnclosed => bytes "environment name is not closed"
  | .nameInvalid name => bytes "invalid environment name " ++ Text.quoted name
  | .delimiterExpected => bytes "verb delimiter is expected"
  | .delimiterInvalid c =>
    bytes "delimiter character " ++ Text.quotedChar c ++ bytes " is not allowed"
  | .verbUnclosed => bytes "verb is not closed"
  | .unmatchedBrace => bytes "unmatched \x7d"
  | .unexpectedEnd name => bytes "unexpected \\end\x7b" ++ name ++ bytes "\x7d"
  | .unexpectedCommand name => bytes "unexpected \\" ++ name
  | .optionalUnclosed => bytes "optional argument is not closed"
  | .groupUnclosed => bytes "group is not closed"
  | .verbatimUnclosed name =>
    bytes "verbatim environment " ++ Text.quoted name ++ bytes " is not closed"
  | .environmentUnclosed name =>
    bytes "environment " ++ Text.quoted name ++ bytes " is not closed"
  | .environmentMismatch found opened =>
    bytes "\\end\x7b" ++ found ++ bytes "\x7d does not match \\begin\x7b" ++ opened ++ bytes "\x7d"
  | .inlineUnclosed => bytes "inline math is not closed"
  | .displayUnclosed => bytes "display math is not closed"
  | .tooDeep => bytes "document is nested too deeply"

/-- A cause, the offset it is about, and the offset at which reading stopped. -/
structure Fault where
  offset : Nat
  cause : Cause
  stopped : Nat
  deriving DecidableEq, Repr

/-- A fault placed in its source. Lines and columns are counted from one, columns in bytes. -/
structure SyntaxError where
  offset : Nat
  line : Nat
  column : Nat
  cause : Cause
  deriving DecidableEq, Repr

/-- The number of the line that holds an offset. -/
def lineAt (src : Bytes) (offset : Nat) : Nat :=
  (src.take offset).count Byte.newline + 1

/-- The number of the column that holds an offset. -/
def columnAt (src : Bytes) (offset : Nat) : Nat :=
  ((src.take offset).reverse.takeWhile (· != Byte.newline)).length + 1

/-- Places a fault in its source. No offset lies beyond the end. -/
def Fault.locate (src : Bytes) (f : Fault) : SyntaxError :=
  let offset := min f.offset src.length
  ⟨offset, lineAt src offset, columnAt src offset, f.cause⟩

/-- The full text of a syntax error. -/
def SyntaxError.message (e : SyntaxError) : Bytes :=
  bytes "syntax error at " ++ decimal e.line ++ bytes ":" ++ decimal e.column ++
    bytes " (offset " ++ decimal e.offset ++ bytes "): " ++ e.cause.message

end TexTidy
