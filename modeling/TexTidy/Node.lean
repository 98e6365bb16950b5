import TexTidy.Mode
import TexTidy.Source.Token

/-!
# TexTidy.Node

The tree of a document. A node is a leaf, which holds text, or a branch, which holds two sequences of
nodes: its arguments and its content. What kind of branch it is says its shape, and the shape also says
which text opens and closes it. An argument is a branch like any other, so spans, siblings and raw text
treat all nodes alike.

Every node carries the layout hints that the printer follows. A node that was just read carries none.
-/

namespace TexTidy

/-- How a node is to be laid out. -/
structure Hints where
  /-- Continuation lines of a command are indented. -/
  hangingIndent : Bool := false
  /-- The arguments of a command flow with the paragraph around it. -/
  inParagraph : Bool := false
  /-- The content of an environment is aligned in columns. -/
  alignContent : Bool := false
  /-- A line break stands before the node. -/
  breakBefore : Bool := false
  /-- A space after the node is a line break. -/
  breakAfter : Bool := false
  /-- The mode of the arguments of a command, if it is not that of the command. -/
  mode : Option Mode := none
  deriving DecidableEq, Repr

/-- What a leaf is. -/
inductive Leaf where
  | text (content : Bytes)
  /-- White space with at most one newline. -/
  | space (raw : Bytes)
  /-- White space with two or more newlines. -/
  | parbreak (raw : Bytes)
  /-- A comment, and whether a paragraph break follows it. -/
  | comment (comment : Comment) (beforeParbreak : Bool)
  /-- Verbatim text between two equal delimiters. -/
  | verb (escape name delimiter content : Bytes)
  /-- A kind of node that this library does not know, by the label it is reported under and by the
      text that stands for it, if it has one. -/
  | foreign (label : Bytes) (text : Option Bytes)
  /-- An empty place in a sequence. -/
  | missing
  deriving DecidableEq, Repr

/-- What a branch is. -/
inductive Shape where
  | document
  | group
  /-- An argument: the blanks before it and its delimiters, which are empty for a star and for an
      argument without braces. -/
  | argument (space opening closing : Bytes)
  /-- A command. The scripts `^` and `_` of a formula are commands without a backslash. -/
  | command (escape name : Bytes)
  | environment (name : Bytes)
  /-- An environment whose content is a formula. -/
  | mathEnvironment (name : Bytes)
  /-- An environment whose body is kept as it is. -/
  | verbatim (name body : Bytes)
  | displayMath (opening closing : Bytes)
  | inlineMath (opening closing : Bytes)
  deriving DecidableEq, Repr

/-- A node of a document. -/
inductive Node where
  | leaf (span : Span) (hints : Hints) (leaf : Leaf)
  | branch (span : Span) (hints : Hints) (shape : Shape) (args content : List Node)
  deriving Repr

instance : Inhabited Node := ⟨.leaf {} {} .missing⟩

namespace Node

/-- Where the node stands in its source. -/
def span : Node → Span
  | .leaf s _ _ => s
  | .branch s _ _ _ _ => s

/-- How the node is to be laid out. -/
def hints : Node → Hints
  | .leaf _ h _ => h
  | .branch _ h _ _ _ => h

/-- White space or a paragraph break. -/
def isSpace : Node → Bool
  | .leaf _ _ (.space _) => true
  | .leaf _ _ (.parbreak _) => true
  | _ => false

/-- White space that is no paragraph break. -/
def isPlainSpace : Node → Bool
  | .leaf _ _ (.space _) => true
  | _ => false

/-- A paragraph break. -/
def isParbreak : Node → Bool
  | .leaf _ _ (.parbreak _) => true
  | _ => false

/-- A comment. -/
def comment? : Node → Option Comment
  | .leaf _ _ (.comment c _) => some c
  | _ => none

/-- An empty place. -/
def isMissing : Node → Bool
  | .leaf _ _ .missing => true
  | _ => false

/-- The escape and the name of a command. -/
def command? : Node → Option (Bytes × Bytes)
  | .branch _ _ (.command escape name) _ _ => some (escape, name)
  | _ => none

/-- The name of a command that is written with a backslash. -/
def controlName? (n : Node) : Option Bytes :=
  match n.command? with
  | some (escape, name) => if escape = [Byte.backslash] then some name else none
  | none => none

/-- A node that stands on lines of its own. -/
def standsAlone : Node → Bool
  | .branch _ _ (.environment _) _ _ => true
  | .branch _ _ (.mathEnvironment _) _ _ => true
  | .branch _ _ (.verbatim _ _) _ _ => true
  | .branch _ _ (.displayMath _ _) _ _ => true
  | _ => false

/-- A sequence without the white space at its ends. -/
def trim (nodes : List Node) : List Node :=
  ((nodes.dropWhile isSpace).reverse.dropWhile isSpace).reverse

end Node

end TexTidy
