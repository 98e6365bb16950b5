import TexTidy.Print
import TexTidy.Proofs.Spelling

/-!
# TexTidy.Proofs.Hazard

The documents whose structure a layout can change. White space is mostly free, but there are places where a
layout drops or adds some that has a meaning:

* a paragraph break at the start of an environment, or anywhere in a table, is dropped. If it was all that
  kept the node after it from being an argument, that node becomes one (`isSettled`);
* in a group the line break of the source is replaced by one of the layout, with other blanks behind it, even
  where the line break is the name of a command or all of a verbatim text (`isLoose`);
* the blank of a control space is kept at the end of a line if an odd number of backslashes stands before it.
  Verbatim text that ends in a backslash spoils the count, also where double backslashes follow it (`isUnglued`);
* an empty formula is written with a blank in it, but where raw text is written, in a group or a table, it is a double
  dollar sign. That opens a formula if anything behind it can close one. In a group or a table there are no empty
  formulas but those in an argument of verbatim text. If that text has a percent sign, the formula could be closed only
  behind the line, and the layout can break the line (`isFilled`).

A tree that has none of these is steady.
-/

namespace TexTidy.Node

/-! ## backslashes -/

/-- Whether a node is verbatim text whose delimiter is a backslash. -/
def endsInBackslash : Node → Bool
  | .leaf _ _ (.verb _ _ delimiter _) => delimiter.getLast? == some Byte.backslash
  | _ => false

/-- Whether nothing but backslashes is written for a node. -/
def isBackslashes (n : Node) : Bool :=
  n.raw.all (· == Byte.backslash)

/-- Whether a name is a blank of the line. -/
def isPadName (name : Bytes) : Bool :=
  name == [Byte.space] || name == [Byte.tab]

mutual

/-- Whether a node begins with a control space, or with double backslashes and a control space behind them. -/
def isControl : Node → Bool
  | .branch _ _ (.command escape name) args _ =>
    escape == [Byte.backslash] && (isPadName name || name == [Byte.backslash] && leadsToControl args)
  | .branch _ _ (.argument space opening _) _ content =>
    space.isEmpty && opening.isEmpty && leadsToControl content
  | _ => false

/-- Whether that holds of a sequence. -/
def leadsToControl : List Node → Bool
  | [] => false
  | n :: ns => isControl n || n.isBackslashes && leadsToControl ns

end

/-- Whether verbatim text that ends in a backslash stands right before a control space, or only double backslashes
    stand in between. -/
def hasGlue : List Node → Bool
  | [] => false
  | n :: ns => n.endsInBackslash && leadsToControl ns || hasGlue ns

/-- Whether no backslash in the content of a node can be taken for the one of a control space. -/
def isUnglued : Node → Bool
  | .leaf _ _ _ => true
  | .branch _ _ _ _ content => !hasGlue content

/-! ## line breaks -/

/-- Whether a node is a group. -/
def isGroup : Node → Bool
  | .branch _ _ .group _ _ => true
  | _ => false

/-- Whether the blanks behind a line break have no meaning for a node: no command that is named by the line
    break takes arguments or is one, and with `keep` no verbatim text is a line break. -/
def isLoose (r : Registry) (keep : Bool) : Node → Bool
  | .branch _ _ (.verbatim _ body) _ _ => !keep || body != [Byte.newline]
  | .branch _ _ (.command _ name) _ _ => name != [Byte.newline] || (Parse.commandArgs r name).isEmpty
  | .branch _ _ (.argument _ opening _) _ content =>
    !opening.isEmpty || content.all fun n => n.controlName? != some [Byte.newline]
  | _ => true

/-! ## dollar signs -/

/-- Whether a node is an empty formula that is written as a double dollar sign. -/
def isEmptyFormula : Node → Bool
  | .branch _ _ (.inlineMath opening _) _ content => opening == [Byte.dollar] && content.isEmpty
  | _ => false

/-- Whether no empty formula stands in an argument of verbatim text. -/
def isFilled : Node → Bool
  | .branch _ _ (.verbatim _ _) args _ => (preorderAll args).all fun n => !n.isEmptyFormula
  | _ => true

/-- The content of a node that is written from its raw text: that of a group or of a table. -/
def quoted : Node → List Node
  | .branch _ _ .group _ content => content
  | .branch _ hints (.environment _) _ content
  | .branch _ hints (.mathEnvironment _) _ content => if Print.isTable hints content then content else []
  | _ => []

/-! ## paragraph breaks -/

/-- Whether a paragraph break keeps the first node of a sequence from being an argument. -/
def beginsApart (ns : List Node) : Bool :=
  (ns.takeWhile isSpace).any isParbreak && (ns.dropWhile isSpace).head?.any isEdible

/-- Whether a paragraph break keeps some node of a sequence from being an argument of the one before it. -/
def hasApart (r : Registry) : List Node → Bool
  | [] => false
  | n :: ns => n.isHungry r && beginsApart ns || hasApart r ns

mutual

/-- Whether no paragraph break that is dropped keeps a node from being an argument. What stands in a group
    or in a table is not laid out. -/
def isSettled (r : Registry) : Node → Bool
  | .leaf _ _ _ => true
  | .branch _ _ .group _ _ => true
  | .branch _ hints shape args content =>
    areSettled r args && !((shape.before r args).hungry && beginsApart content) &&
      if Print.isTable hints content then !hasApart r content else areSettled r content

/-- Whether that holds of all nodes of a sequence. -/
def areSettled (r : Registry) : List Node → Bool
  | [] => true
  | n :: ns => isSettled r n && areSettled r ns

end

/-- White space has no meaning in the places where a layout changes it freely. -/
structure Steady (r : Registry) (keep : Bool) (n : Node) : Prop where
  settled : n.isSettled r = true
  loose : Each (fun m => m.isGroup = true → Each (fun k => k.isLoose r keep = true) m) n
  unglued : Each (fun m => m.isUnglued = true) n
  filled : Each (fun m => All (fun k => k.isFilled = true) m.quoted) n

instance (P : Node → Prop) [DecidablePred P] (n : Node) : Decidable (Each P n) :=
  inferInstanceAs (Decidable (∀ m ∈ n.preorder, P m))

instance (P : Node → Prop) [DecidablePred P] (ns : List Node) : Decidable (All P ns) :=
  inferInstanceAs (Decidable (∀ m ∈ preorderAll ns, P m))

instance (r : Registry) (keep : Bool) (n : Node) : Decidable (Steady r keep n) :=
  decidable_of_iff (n.isSettled r = true ∧
      Each (fun m => m.isGroup = true → Each (fun k => k.isLoose r keep = true) m) n ∧
      Each (fun m => m.isUnglued = true) n ∧
      Each (fun m => All (fun k => k.isFilled = true) m.quoted) n)
    ⟨fun ⟨hsettled, hloose, hunglued, hfilled⟩ => ⟨hsettled, hloose, hunglued, hfilled⟩,
      fun h => ⟨h.settled, h.loose, h.unglued, h.filled⟩⟩

end TexTidy.Node
