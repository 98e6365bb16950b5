import TexTidy.Layout.Fits
import TexTidy.Text.LineEnd

/-!
# TexTidy.Layout.Render

From a layout document to text. The renderer walks the document once. Whenever it meets a group or the
next content of a fill it asks whether what comes next fits on the line, and fixes the style of that
part; nothing is ever taken back.

Spaces and tabs at the end of a line are removed when the line is broken, and so are those at the end
of the text.
-/

namespace TexTidy.Layout

/-- What a document is laid out for. -/
structure Page where
  /-- The columns of a line, a number of 64 bits. -/
  width : Int
  /-- The columns of one step of indentation. No line can be indented by less than nothing. -/
  step : Nat
  /-- The columns of a text. -/
  measure : Bytes → Nat

/-- Where the renderer stands. -/
structure Sheet where
  /-- What is written, the last byte first. -/
  written : Bytes
  /-- The column of the next byte. -/
  column : Nat
  /-- A line was broken inside a flat part, so that the next group has to be measured again. -/
  brokenFlat : Bool

/-! ## Writing -/

namespace Sheet

/-- An empty sheet. -/
def blank : Sheet := ⟨[], 0, false⟩

/-- What stands after the last newline of a text. -/
def lastLine (s : Bytes) : Bytes :=
  (s.reverse.takeWhile (· != Byte.newline)).reverse

/-- Writes a text. -/
def write (measure : Bytes → Nat) (s : Bytes) (sheet : Sheet) : Sheet :=
  { sheet with
    written := s.reverse ++ sheet.written
    column := if s.hasNewline then measure (lastLine s) else sheet.column + measure s }

/-- Writes one space. -/
def writeSpace (sheet : Sheet) : Sheet :=
  { sheet with written := Byte.space :: sheet.written, column := sheet.column + 1 }

/-- Ends the line and indents the next one. -/
def breakLine (indent : Nat) (sheet : Sheet) : Sheet :=
  { sheet with
    written := Bytes.spaces indent ++ Byte.newline :: Text.stripReversed isPad sheet.written
    column := indent }

end Sheet

namespace Page

/-- The least width that there is: the least number of 64 bits. -/
def leastWidth : Int :=
  -0x8000000000000000

/-- The columns that are left of a line behind some columns. Below the least number of 64 bits counting goes on with
    the greatest. It takes a negative width to come to that, as no line has so many columns. -/
def columnsLeft (page : Page) (column : Nat) : Int :=
  let rest := page.width - column
  if page.width < 0 ∧ rest < leastWidth then rest - 2 * leastWidth else rest

/-- Whether pending documents fit on the rest of the line. -/
def fitsOn (page : Page) (strict : Bool) (pending : Pending) (sheet : Sheet) : Bool :=
  fits page.measure strict pending (page.columnsLeft sheet.column)

/-- The style of a part: flat if it fits. -/
def styleOf (fits : Bool) : Style :=
  if fits then .flat else .broken

mutual

/-- Renders a document at an indentation and in a style. What is pending after it counts for the line
    it ends on. -/
def renderDoc (page : Page) (indent : Nat) (style : Style) (pending : Pending) :
    Doc → Sheet → Sheet
  | .empty, sheet => sheet
  | .text s, sheet => sheet.write page.measure s
  | .line, sheet => if style = .flat then sheet.writeSpace else sheet.breakLine indent
  | .softLine, sheet => if style = .flat then sheet else sheet.breakLine indent
  | .hardLine, sheet =>
    let sheet := if style = .flat then { sheet with brokenFlat := true } else sheet
    sheet.breakLine indent
  | .concat parts, sheet => renderAll page indent style pending parts sheet
  | .indent body, sheet => renderDoc page (indent + page.step) style pending body sheet
  | .group body, sheet =>
    if style = .flat && !sheet.brokenFlat then
      renderDoc page indent (styleOf !body.hard) pending body sheet
    else
      let fits := !body.hard && page.fitsOn false ((.flat, [body]) :: pending) sheet
      renderDoc page indent (styleOf fits) pending body { sheet with brokenFlat := false }
  | .fill parts, sheet => renderFill page indent style pending parts sheet

/-- Renders documents one after the other. -/
def renderAll (page : Page) (indent : Nat) (style : Style) (pending : Pending) :
    List Doc → Sheet → Sheet
  | [], sheet => sheet
  | d :: ds, sheet =>
    renderAll page indent style pending ds
      (renderDoc page indent style ((style, ds) :: pending) d sheet)

/-- Renders the parts of a fill. A content is flat if it fits on the line by itself, and the separator
    after it is flat if the next content fits on the line too. -/
def renderFill (page : Page) (indent : Nat) (style : Style) (pending : Pending) :
    List Doc → Sheet → Sheet
  | [], sheet => sheet
  | [content], sheet =>
    let contentStyle := styleOf (page.fitsOn true [(.flat, [content])] sheet)
    renderDoc page indent contentStyle pending content sheet
  | [content, sep], sheet =>
    let both := styleOf (page.fitsOn true [(.flat, [content])] sheet)
    renderDoc page indent both pending sep
      (renderDoc page indent both ((both, [sep]) :: pending) content sheet)
  | content :: sep :: next :: more, sheet =>
    let pairFits := page.fitsOn true [(.flat, [content, sep, next])] sheet
    let contentFits := page.fitsOn true [(.flat, [content])] sheet
    let contentStyle := styleOf (pairFits || contentFits)
    let sepStyle := styleOf pairFits
    let rest := (style, next :: more) :: pending
    renderFill page indent style pending (next :: more)
      (renderDoc page indent sepStyle rest sep
        (renderDoc page indent contentStyle ((sepStyle, [sep]) :: rest) content sheet))

end

/-- The text of a document on a page. -/
def render (page : Page) (d : Doc) : Bytes :=
  Text.stripLine (page.renderDoc 0 .broken [] d .blank).written.reverse

end Page

end TexTidy.Layout
