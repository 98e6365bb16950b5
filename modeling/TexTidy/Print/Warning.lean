import TexTidy.Print

/-!
# TexTidy.Print.Warning

What a printer reports about a tree that did not come from a source: nodes of an unknown kind, which
are printed as they are, and documents inside a document.
-/

namespace TexTidy.Print

/-- Something unusual in a tree. -/
inductive Warning where
  /-- A document inside another node, and where it starts. -/
  | nestedDocument (offset : Nat)
  /-- A node of an unknown kind, and where it starts. -/
  | unknownNode (label : Bytes) (offset : Nat)
  /-- An empty place. -/
  | missingNode
  deriving DecidableEq, Repr

namespace Warning

/-- What the warning is about, if it has a place. -/
def offset? : Warning → Option Nat
  | .nestedDocument offset => some offset
  | .unknownNode _ offset => some offset
  | .missingNode => none

/-- The wording of a warning. -/
def text : Warning → Bytes
  | .nestedDocument _ => bytes "reference map rebuilt for nested root"
  | .unknownNode label _ => bytes "unknown node type " ++ label ++ bytes " printed as is"
  | .missingNode => bytes "unknown node type <nil> printed as is"

/-- A warning with its place. -/
def message (w : Warning) : Bytes :=
  match w.offset? with
  | some offset => w.text ++ bytes " (offset " ++ decimal offset ++ bytes ")"
  | none => w.text

end Warning

mutual

/-- The warnings about the parts of a node that are not printed from their raw text. -/
def warningsIn : Node → List Warning
  | .leaf s _ (.foreign label _) => [.unknownNode label s.start]
  | .leaf _ _ .missing => [.missingNode]
  | .leaf _ _ _ => []
  | .branch _ _ .group _ _ => []
  | .branch _ hints (.environment _) args content =>
    warningsAmong args ++ (if isTable hints content then [] else warningsAmong content)
  | .branch _ hints (.mathEnvironment _) args content =>
    warningsAmong args ++ (if isTable hints content then [] else warningsAmong content)
  | .branch _ _ (.command _ _) args _ => warningsAmong args
  | .branch _ _ (.verbatim _ _) args _ => warningsAmong args
  | .branch _ _ _ _ content => warningsAmong content

/-- The warnings about the nodes of a sequence. -/
def warningsAmong : List Node → List Warning
  | [] => []
  | n :: ns =>
    (match n with
      | .branch s _ .document _ _ => [Warning.nestedDocument s.start]
      | _ => []) ++ warningsIn n ++ warningsAmong ns

end

/-- The warnings about a tree, in the order in which it is printed. -/
def warnings (n : Node) : List Warning :=
  warningsIn n

end TexTidy.Print
