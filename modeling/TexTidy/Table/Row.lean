import TexTidy.Node.Raw

/-!
# TexTidy.Table.Row

The rows of an aligned environment. Row separators end a row, ampersands divide it into cells, and
rules stand in front of it. A comment can only stand at the end of a row.
-/

namespace TexTidy.Table

/-- The content of a cell. -/
abbrev Cell := List Node

/-- A row of a table. -/
structure Row where
  /-- Horizontal rules in front of the row. -/
  rules : List Node := []
  /-- The cells, without white space at their ends. -/
  cells : List Cell := []
  /-- The text of the column separators; there is one cell more. -/
  separators : List Bytes := []
  /-- The text of the row separator, empty if the row ends without one. -/
  rowSeparator : Bytes := []
  /-- The comment after the row. -/
  comment : Option Node := none

/-- The commands that end a row. -/
def rowEndNames : List Bytes :=
  [bytes "\\", bytes "cr", bytes "tabularnewline"]

/-- The commands that draw a rule. -/
def ruleNames : List Bytes :=
  [bytes "hline", bytes "cline", bytes "toprule", bytes "midrule", bytes "bottomrule",
    bytes "cmidrule"]

/-- Whether a node ends a row. -/
def endsRow (n : Node) : Bool :=
  n.controlName?.any rowEndNames.contains

/-- Whether a node draws a rule. -/
def drawsRule (n : Node) : Bool :=
  n.controlName?.any ruleNames.contains

/-- The text of a column separator. -/
def columnSeparator? : Node → Option Bytes
  | .leaf _ _ (.text content) => if content = [Byte.ampersand] then some content else none
  | _ => none

namespace Row

/-- Whether nothing but rules and white space was met since the row began. -/
def isFresh (row : Row) (cell : Cell) : Bool :=
  row.cells.isEmpty && (Node.trim cell).isEmpty

/-- The row with one more cell. -/
def addCell (row : Row) (cell : Cell) : Row :=
  { row with cells := row.cells ++ [Node.trim cell] }

/-- Splits the rest of a table, when `row` is begun and `cell` holds what was met of its last cell. A
    comment in the middle of a row stays in its cell. -/
def splitFrom (row : Row) (cell : Cell) : List Node → List Row
  | [] => if row.isFresh cell && row.rules.isEmpty then [] else [row.addCell cell]
  | n :: rest =>
    match columnSeparator? n, n.comment? with
    | some sep, _ =>
      let row := row.addCell cell
      splitFrom { row with separators := row.separators ++ [sep] } [] rest
    | none, some _ =>
      if !row.isFresh cell && !(Node.trim rest).isEmpty then splitFrom row (cell ++ [n]) rest
      else { row.addCell cell with comment := some n } :: splitFrom {} [] rest
    | none, none =>
      if endsRow n then
        let row := { row.addCell cell with rowSeparator := n.raw }
        match rest with
        | m :: more =>
          if (m.comment?.map Comment.sameLine).getD false then
            { row with comment := some m } :: splitFrom {} [] more
          else row :: splitFrom {} [] (m :: more)
        | [] => row :: splitFrom {} [] []
      else if drawsRule n && row.isFresh cell then
        splitFrom { row with rules := row.rules ++ [n] } [] rest
      else splitFrom row (cell ++ [n]) rest

/-- The rows of a table. -/
def split (content : List Node) : List Row :=
  splitFrom {} [] content

/-- Whether a row holds a comment and nothing else. -/
def isComment (row : Row) : Bool :=
  row.comment.isSome && row.rules.isEmpty && row.separators.isEmpty && row.rowSeparator.isEmpty &&
    row.cells.length == 1 && row.cells.all List.isEmpty

end Row

/-! ## Cells -/

namespace Cell

/-- A cell on one line, each white space as one space, if it holds neither a paragraph break nor a
    comment. -/
def joined? : Cell → Option Bytes
  | [] => some []
  | n :: ns =>
    if n.isParbreak || n.comment?.isSome then none
    else (joined? ns).map ((if n.isPlainSpace then [Byte.space] else n.raw) ++ ·)

/-- The text of a cell, and whether the cell can be written on one line. -/
def text (cell : Cell) : Bytes × Bool :=
  match cell.joined? with
  | some text => (text, !text.hasNewline)
  | none => ([], false)

end Cell

/-- Whether every cell and every rule can be written on one line. -/
def isGrid (rows : List Row) : Bool :=
  rows.all fun row =>
    row.cells.all (fun cell => cell.text.2) && row.rules.all (fun rule => !rule.raw.hasNewline)

end TexTidy.Table
