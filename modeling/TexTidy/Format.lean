import TexTidy.Layout.Render
import TexTidy.Registry.Hints
import TexTidy.Parse
import TexTidy.Print.Warning
import TexTidy.Registry.Builtin
import TexTidy.Text.Width

/-!
# TexTidy.Format

Formatting: a source is read, annotated, laid out and written. The result ends in exactly one newline,
unless nothing is left of the document.
-/

namespace TexTidy

/-- The columns of a line, unless something else is said. -/
def defaultWidth : Nat := 80

/-- The columns of a step of indentation, unless something else is said. -/
def defaultIndent : Nat := 2

/-- A number that counts only if it is positive. -/
def positiveOr (default : Nat) (n : Int) : Nat :=
  if n ≤ 0 then default else n.toNat

/-- The page for a width and an indentation; what is not positive is not set. -/
def pageOf (measure : Bytes → Nat) (width indent : Int) : Layout.Page where
  width := positiveOr defaultWidth width
  step := positiveOr defaultIndent indent
  measure := measure

/-- Prints a tree as its hints say. -/
def Node.print (page : Layout.Page) (n : Node) : Bytes :=
  page.render (Print.doc page.measure n)

namespace Format

/-- How to format. -/
structure Options where
  width : Int := 0
  indent : Int := 0
  registry : Registry := .builtin
  measure : Bytes → Nat := Text.displayWidth

/-- What is reported about a document that was formatted. -/
structure Report where
  /-- The number of nodes at the top of the document. -/
  nodes : Nat
  warnings : List Print.Warning

/-- A formatted source, with a report unless nothing is left of it. -/
structure Result where
  text : Bytes
  report : Option Report

/-- A text with exactly one newline at its end, unless it holds nothing else. -/
def endLine (s : Bytes) : Bytes :=
  let body := s.trimEnd (· == Byte.newline)
  if body.isEmpty then [] else body ++ [Byte.newline]

/-- The number of nodes at the top of a document. -/
def topNodes : Node → Nat
  | .branch _ _ _ _ content => content.length
  | .leaf _ _ _ => 0

/-- Formats a source and reports on it. -/
def run (options : Options) (src : Bytes) : Except SyntaxError Result :=
  (Parse.document options.registry src).map fun tree =>
    let tree := tree.annotate options.registry
    let text := endLine (tree.print (pageOf options.measure options.width options.indent))
    let report : Report := ⟨topNodes tree, Print.warnings tree⟩
    ⟨text, if text.isEmpty then none else some report⟩

end Format

/-- Formats a source. -/
def format (options : Format.Options) (src : Bytes) : Except SyntaxError Bytes :=
  (Format.run options src).map Format.Result.text

end TexTidy
