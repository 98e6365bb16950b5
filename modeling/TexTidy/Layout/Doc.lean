import TexTidy.Bytes

/-!
# TexTidy.Layout.Doc

Layout documents: text with places where a line may be broken. What becomes of those places is decided
when a document is rendered for a page.
-/

namespace TexTidy.Layout

/-- A layout document. -/
inductive Doc where
  /-- Nothing. -/
  | empty
  /-- Literal text. Newlines in it are written as they are, without indentation. -/
  | text (s : Bytes)
  /-- A space or a line break. -/
  | line
  /-- Nothing or a line break. -/
  | softLine
  /-- Always a line break. -/
  | hardLine
  /-- One document after the other. -/
  | concat (parts : List Doc)
  /-- The line breaks of the document are indented one step more. -/
  | indent (body : Doc)
  /-- On one line if it fits there, otherwise broken at every place of its own. -/
  | group (body : Doc)
  /-- Contents and separators by turns; a separator is broken only if the content after it does not fit
      on the line. -/
  | fill (parts : List Doc)
  deriving Repr

instance : Inhabited Doc := ⟨.empty⟩

namespace Doc

mutual

/-- Whether a document holds a line break in any layout. -/
def hard : Doc → Bool
  | .empty => false
  | .text s => s.hasNewline
  | .line => false
  | .softLine => false
  | .hardLine => true
  | .concat parts => hardAny parts
  | .indent body => hard body
  | .group body => hard body
  | .fill parts => hardAny parts

/-- Whether one of the documents holds a line break in any layout. -/
def hardAny : List Doc → Bool
  | [] => false
  | d :: ds => hard d || hardAny ds

end

/-- Documents with a separator between them. -/
def join (sep : Doc) (docs : List Doc) : Doc :=
  .concat (docs.intersperse sep)

end Doc

end TexTidy.Layout
