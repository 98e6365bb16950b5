import TexTidy.Layout.Doc

/-!
# TexTidy.Print.Paragraph

A paragraph under construction. Content and separators arrive in any order; content that arrives in a
row becomes one unbreakable item, and of separators that arrive in a row the strongest counts. The
result is a fill.

What arrives is a list of steps, so that a printer can say what a paragraph is made of without holding
the paragraph itself. Two kinds of steps look at the paragraph they arrive at.
-/

namespace TexTidy.Print

open Layout (Doc)

/-- What stands between two items, the weakest first. -/
inductive Separator where
  | none
  | soft
  | line
  | forced
  | paragraph
  deriving DecidableEq, Repr

namespace Separator

/-- The strength of a separator. -/
def rank : Separator → Nat
  | .none => 0
  | .soft => 1
  | .line => 2
  | .forced => 3
  | .paragraph => 4

/-- The stronger of two separators. -/
def strongest (a b : Separator) : Separator :=
  if b.rank ≤ a.rank then a else b

theorem rank_strongest (a b : Separator) : (a.strongest b).rank = max a.rank b.rank := by
  unfold strongest
  split <;> omega

/-- The layout of a separator. -/
def doc : Separator → Doc
  | .none => .text []
  | .soft => .softLine
  | .line => .line
  | .forced => .hardLine
  | .paragraph => .concat [.hardLine, .hardLine]

end Separator

/-- What arrives at a paragraph. -/
inductive Step where
  | content (d : Doc)
  | separator (s : Separator)
  /-- A separator that counts only if some content has arrived before. -/
  | unlessEmpty (s : Separator)
  /-- A separator that counts only right after content. -/
  | ifOpen (s : Separator)

/-- A paragraph under construction. Both lists grow at their front. -/
structure Paragraph where
  /-- Finished items, each with its separator, the last first. -/
  done : List Doc := []
  /-- The contents of the item that is being collected, the last first. -/
  item : List Doc := []
  /-- The separator after it. -/
  gap : Option Separator := none

namespace Paragraph

/-- Whether no content has arrived yet. -/
def isEmpty (p : Paragraph) : Bool :=
  p.done.isEmpty && p.item.isEmpty

/-- Whether content was the last to arrive. -/
def isOpen (p : Paragraph) : Bool :=
  !p.item.isEmpty && p.gap.isNone

/-- Finishes the current item, if a separator is waiting. -/
def settle (p : Paragraph) : Paragraph :=
  match p.gap with
  | none => p
  | some s => { done := s.doc :: .concat p.item.reverse :: p.done }

/-- Adds content. -/
def addContent (p : Paragraph) (d : Doc) : Paragraph :=
  let p := p.settle
  { p with item := d :: p.item }

/-- Adds a separator. -/
def addSeparator (p : Paragraph) (s : Separator) : Paragraph :=
  { p with gap := some (p.gap.elim s (·.strongest s)) }

/-- Takes one step. -/
def step (p : Paragraph) : Step → Paragraph
  | .content d => p.addContent d
  | .separator s => p.addSeparator s
  | .unlessEmpty s => if p.isEmpty then p else p.addSeparator s
  | .ifOpen s => if p.isOpen then p.addSeparator s else p

/-- Takes all steps, in order. -/
def steps (p : Paragraph) (ss : List Step) : Paragraph :=
  ss.foldl step p

/-- The parts of the fill. -/
def fillParts (p : Paragraph) : List Doc :=
  let p := p.settle
  (if p.item.isEmpty then p.done else .concat p.item.reverse :: p.done).reverse

/-- The layout of a paragraph. -/
def doc (p : Paragraph) : Doc :=
  .fill p.fillParts

end Paragraph

/-- The layout of the paragraph that takes the given steps. -/
def paragraph (ss : List Step) : Doc :=
  (({} : Paragraph).steps ss).doc

end TexTidy.Print
