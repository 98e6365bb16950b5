import TexTidy.Node

/-!
# TexTidy.Node.Raw

The text a node was read from. It comes as a list of pieces: a line break outside verbatim text is a
piece of its own, so that a printer can put a line break of the layout in its place, while verbatim
text is one piece whatever it holds.
-/

namespace TexTidy

/-- A text cut at its newlines, each newline a piece of its own and no piece empty. -/
def Bytes.linePieces : Bytes → List Bytes
  | [] => []
  | c :: s =>
    if c == Byte.newline then [c] :: linePieces s
    else match linePieces s with
      | [] => [[c]]
      | p :: ps => if p = [Byte.newline] then [c] :: p :: ps else (c :: p) :: ps

namespace Shape

/-- What stands before the arguments and the content. -/
def openingPieces : Shape → List Bytes
  | .document => []
  | .group => [[Byte.openBrace]]
  | .argument space opening _ => space.linePieces ++ opening.linePieces
  | .command escape name => (escape ++ name).linePieces
  | .environment name => (Cursor.beginMarker name).linePieces
  | .mathEnvironment name => (Cursor.beginMarker name).linePieces
  | .verbatim name _ => (Cursor.beginMarker name).linePieces
  | .displayMath opening _ => opening.linePieces
  | .inlineMath opening _ => opening.linePieces

/-- What stands after the arguments and the content. -/
def closingPieces : Shape → List Bytes
  | .document => []
  | .group => [[Byte.closeBrace]]
  | .argument _ _ closing => closing.linePieces
  | .command _ _ => []
  | .environment name => (Cursor.endMarker name).linePieces
  | .mathEnvironment name => (Cursor.endMarker name).linePieces
  | .verbatim name body => body :: (Cursor.endMarker name).linePieces
  | .displayMath _ closing => closing.linePieces
  | .inlineMath _ closing => closing.linePieces

end Shape

/-- The pieces of a leaf. -/
def Leaf.rawPieces : Leaf → List Bytes
  | .text content => content.linePieces
  | .space raw => raw.linePieces
  | .parbreak raw => raw.linePieces
  | .comment c _ =>
    c.leading.linePieces ++ Bytes.linePieces (Byte.percent :: c.content) ++ c.suffix.linePieces
  | .verb escape name delimiter content => [escape ++ name ++ delimiter ++ content ++ delimiter]
  | .foreign _ stand => stand.toList
  | .missing => []

namespace Node

mutual

/-- The pieces of a node, in order. -/
def rawPieces : Node → List Bytes
  | .leaf _ _ l => l.rawPieces
  | .branch _ _ shape args content =>
    shape.openingPieces ++ rawPiecesAll args ++ rawPiecesAll content ++ shape.closingPieces

/-- The pieces of a sequence, in order. -/
def rawPiecesAll : List Node → List Bytes
  | [] => []
  | n :: ns => rawPieces n ++ rawPiecesAll ns

end

/-- The text of a node. -/
def raw (n : Node) : Bytes :=
  n.rawPieces.flatten

/-- The text of a sequence. -/
def rawAll (ns : List Node) : Bytes :=
  (rawPiecesAll ns).flatten

end Node

end TexTidy
