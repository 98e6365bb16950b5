import TexTidy.Table.Column
import TexTidy.Table.Row
import TexTidy.Text.LineEnd

/-!
# TexTidy.Table.Align

Rows as lines of text. Cells are padded so that the separators of one index start at the same column in
every row. How wide a text is, is a parameter.
-/

namespace TexTidy.Table

/-- The greater value at each index; where one list is shorter, the other decides. -/
def maxEach : List Nat → List Nat → List Nat
  | [], bs => bs
  | as, [] => as
  | a :: as, b :: bs => max a b :: maxEach as bs

/-- The width of the widest cell in each column. -/
def widestCells (measure : Bytes → Nat) (rows : List Row) : List Nat :=
  rows.foldl (fun widths row => maxEach widths (row.cells.map fun c => measure c.text.1)) []

/-- The width of the widest separator after each column. -/
def widestSeparators (measure : Bytes → Nat) (rows : List Row) : List Nat :=
  rows.foldl (fun widths row => maxEach widths (row.separators.map measure)) []

/-- What all rows of a table have in common. -/
structure Grid where
  measure : Bytes → Nat
  columns : List Column
  cellWidths : List Nat
  gapWidths : List Nat

namespace Grid

/-- The spaces that fill a text up to a width. -/
def padding (grid : Grid) (width : Nat) (text : Bytes) : Bytes :=
  Bytes.spaces (width - grid.measure text)

/-- Whether the cells of a column are pushed to the right. -/
def isRight (grid : Grid) (i : Nat) : Bool :=
  (grid.columns[i]?.map Column.align) == some .right

/-- A cell at index `i` of its row. At the end of a line nothing is filled up on the right. -/
def cell (grid : Grid) (i : Nat) (followed : Bool) (text : Bytes) : Bytes :=
  let pad := grid.padding (grid.cellWidths.getD i 0) text
  if grid.isRight i then pad ++ text
  else if followed then text ++ pad
  else text

/-- A separator after the cell at index `i`. -/
def separator (grid : Grid) (i : Nat) (sep : Bytes) : Bytes :=
  Byte.space :: sep ++ grid.padding (grid.gapWidths.getD i 0) sep ++ [Byte.space]

/-- The cells of a row from index `i` on, each with the separator after it. -/
def cells (grid : Grid) (closed : Bool) : Nat → List Cell → List Bytes → Bytes
  | _, [], _ => []
  | i, c :: cs, [] => grid.cell i closed c.text.1 ++ cells grid closed (i + 1) cs []
  | i, c :: cs, sep :: seps =>
    grid.cell i true c.text.1 ++ grid.separator i sep ++ cells grid closed (i + 1) cs seps

/-- The cells, separators and row separator of a row. -/
def body (grid : Grid) (row : Row) : Bytes :=
  let blank := row.separators.isEmpty && row.cells.length == 1 && row.cells.all List.isEmpty
  let line := if blank then [] else grid.cells (!row.rowSeparator.isEmpty) 0 row.cells row.separators
  if row.rowSeparator.isEmpty then line
  else if line.isEmpty then row.rowSeparator
  else line ++ [Byte.space] ++ row.rowSeparator

/-- The line of a row, its comment included. -/
def line (grid : Grid) (row : Row) : Bytes :=
  match row.comment.bind Node.comment? with
  | none => grid.body row
  | some c =>
    let text := Text.stripPadding (grid.body row)
    (if text.isEmpty then [] else text ++ [Byte.space]) ++ Byte.percent :: c.content

/-- The lines of a row: one for each rule, and one for the row unless it holds rules only. -/
def lines (grid : Grid) (row : Row) : List Bytes :=
  let line := grid.line row
  row.rules.map Node.raw ++ (if line.isEmpty && !row.rules.isEmpty then [] else [line])

end Grid

/-- The lines of a table. -/
def format (measure : Bytes → Nat) (columns : List Column) (rows : List Row) : List Bytes :=
  let grid : Grid :=
    ⟨measure, columns, widestCells measure rows, widestSeparators measure rows⟩
  rows.flatMap grid.lines

end TexTidy.Table
