import TexTidy.Proofs.Follow

/-!
# TexTidy.Proofs.Spelling

The texts that a tree can be written as. A tree fixes its words, names and delimiters, but leaves open how
much white space stands between two nodes. `Spells r keep part s` lists the conditions under which reading
`s` gives the structure back:

* two nodes that white space keeps apart stay apart;
* a paragraph break stays one if it is all that keeps a node from being taken for an argument of the node
  before it;
* a comment is the last thing on its line.

White space can be added anywhere between two nodes: an argument that is not there does not appear because
of it. Verbatim text is fixed with `keep`; without it, white space may stand for it.
-/

namespace TexTidy

open Bytes (ink)

/-! ## structure without white space -/

/-- A leaf without what white space decides. -/
def Leaf.skeleton : Leaf → Leaf
  | .comment c _ => .comment { content := c.content.trimEnd isLineBlank } false
  | l => l

/-- A shape without white space. Verbatim text is part of it only with `keep`. -/
def Shape.skeleton (keep : Bool) : Shape → Shape
  | .argument _ opening closing => .argument [] opening closing
  | .verbatim name body => .verbatim name (if keep then body else [])
  | shape => shape

namespace Node

mutual

/-- The structure of a tree: no spans, no hints and no white space. -/
def skeleton (keep : Bool) : Node → Node
  | .leaf _ _ l => .leaf {} {} l.skeleton
  | .branch _ _ shape args content =>
    .branch {} {} (shape.skeleton keep) (skeletons keep args) (skeletons keep content)

/-- The structure of a sequence. -/
def skeletons (keep : Bool) : List Node → List Node
  | [] => []
  | n :: ns => if n.isSpace then skeletons keep ns else skeleton keep n :: skeletons keep ns

end

end Node

/-! ## arguments that are waited for -/

/-- Whether an argument is one of a kind. -/
def ArgKind.fits (kind : ArgKind) : Node → Bool
  | .branch _ _ (.argument space opening _) _ content =>
    match kind with
    | .star => space.isEmpty && opening.isEmpty && Node.rawAll content == [Byte.star]
    | .optional => opening == [Byte.openBracket]
    | .mandatory => opening != [Byte.openBracket]
  | _ => false

/-- The kinds of a signature that are left after the last argument. -/
def ArgKind.waiting : List ArgKind → List Node → List ArgKind
  | [], _ => []
  | kind :: kinds, [] => kind :: kinds
  | kind :: kinds, a :: as =>
    if kind.fits a then waiting kinds as else waiting kinds (a :: as)

/-- Whether a mandatory argument is left after the last argument. -/
def ArgKind.isHungry (kinds : List ArgKind) (args : List Node) : Bool :=
  (waiting kinds args).contains .mandatory

namespace Node

/-- Whether a node would take an argument that came right after it. -/
def isHungry (r : Registry) : Node → Bool
  | .branch _ _ (.command escape name) args _ =>
    ArgKind.isHungry (if escape.isEmpty then [.mandatory] else Parse.commandArgs r name) args
  | _ => false

/-- Whether a node, or its first character, could be an argument. -/
def isEdible : Node → Bool
  | .leaf _ _ (.text content) => content.head?.any fun b => b ≠ 0 && !isActive b && !isBlank b
  | .branch _ _ .group _ _ => true
  | .branch _ _ (.command escape _) _ _ => !escape.isEmpty
  | _ => false

@[simp] theorem controlName?_command (s : Span) (h : Hints) (escape name : Bytes) (args content : List Node) :
    (branch s h (.command escape name) args content).controlName? =
      if escape = [Byte.backslash] then some name else none := rfl

/-- Whether a node is a command that is named by the end of its line and takes no argument. Whatever follows
    it is never taken for more of it. -/
def isLineEnd (r : Registry) (n : Node) : Bool :=
  n.controlName? == some [Byte.newline] && (Parse.commandArgs r [Byte.newline]).isEmpty

end Node

/-! ## spelling -/

/-- What stands before a place in a sequence. -/
structure Before where
  /-- It waits for a mandatory argument. -/
  hungry : Bool := false
  /-- What follows could be taken for more of it. -/
  sticky : Bool := false

def Node.before (r : Registry) (n : Node) : Before :=
  ⟨n.isHungry r, !n.isLineEnd r⟩

/-- What stands before the content of a branch. -/
def Shape.before (r : Registry) (args : List Node) : Shape → Before
  | .environment name | .mathEnvironment name =>
    ⟨ArgKind.isHungry (Parse.environmentEntry r name).args args, true⟩
  | _ => {}

/-- Whether a branch has content between an opening and a closing. -/
def Shape.isContainer : Shape → Bool
  | .group | .environment _ | .mathEnvironment _ | .displayMath _ _ | .inlineMath _ _ => true
  | _ => false

/-- White space `w` can stand in front of the node `n` for the nodes `us`. -/
structure Gap (b : Before) (us : List Node) (w : Bytes) (n : Node) : Prop where
  spaces : ∀ u ∈ us, u.isSpace = true
  white : ink w = []
  kept : us ≠ [] → w = [] → b.sticky = false
  broken : b.hungry = true → n.isEdible = true → (∃ u ∈ us, u.isParbreak = true) →
    2 ≤ w.count Byte.newline

/-- What can be spelled. -/
inductive Part where
  | node (n : Node)
  | args (as : List Node)
  | nodes (b : Before) (ns : List Node)

/-- The text is a spelling of the part. -/
inductive Spells (r : Registry) (keep : Bool) : Part → Bytes → Prop
  | text {s h content} : Spells r keep (.node (.leaf s h (.text content))) content
  | verb {s h escape name delimiter content} :
      Spells r keep (.node (.leaf s h (.verb escape name delimiter content)))
        (escape ++ name ++ delimiter ++ content ++ delimiter)
  | command {s h escape name args content t} (taken : Spells r keep (.args args) t) :
      Spells r keep (.node (.branch s h (.command escape name) args content)) (escape ++ name ++ t)
  | verbatim {s h name body args content t u} (taken : Spells r keep (.args args) t)
      (kept : u = body ∨ keep = false ∧ ink u = []) :
      Spells r keep (.node (.branch s h (.verbatim name body) args content))
        (Cursor.beginMarker name ++ t ++ u ++ Cursor.endMarker name)
  | container {s h shape args content t u} (kind : shape.isContainer = true)
      (taken : Spells r keep (.args args) t)
      (inside : Spells r keep (.nodes (shape.before r args) content) u)
      (apart : shape.opening = [Byte.dollar] → u ≠ []) :
      Spells r keep (.node (.branch s h shape args content)) (shape.opening ++ t ++ u ++ shape.closing)
  | noArgs : Spells r keep (.args []) []
  /-- The space before an argument in braces is free; a bracket has to touch what it belongs to. -/
  | delimited {s h space opening closing xs content w t as u} (solid : opening ≠ [])
      (white : ink w = []) (short : w.count Byte.newline ≤ 1)
      (bracket : opening = [Byte.openBracket] → w = []) (inside : Spells r keep (.nodes {} content) t)
      (rest : Spells r keep (.args as) u) :
      Spells r keep (.args (.branch s h (.argument space opening closing) xs content :: as))
        (w ++ opening ++ t ++ closing ++ u)
  | bare {s h space closing xs n w t as u} (white : ink w = []) (short : w.count Byte.newline ≤ 1)
      (apart : w = [] → space = []) (touching : space = [] → n.raw = [Byte.star] → w = [])
      (inside : Spells r keep (.node n) t) (rest : Spells r keep (.args as) u) :
      Spells r keep (.args (.branch s h (.argument space [] closing) xs [n] :: as)) (w ++ t ++ u)
  | done {b us w} (spaces : ∀ u ∈ us, u.isSpace = true) (white : ink w = []) :
      Spells r keep (.nodes b us) w
  | item {b us w n t ns s} (gap : Gap b us w n) (solid : n.isSpace = false)
      (code : n.comment? = none) (head : Spells r keep (.node n) t)
      (rest : Spells r keep (.nodes (n.before r) ns) s) :
      Spells r keep (.nodes b (us ++ n :: ns)) (w ++ t ++ s)
  | comment {b us w s' h c before content ns s} (spaces : ∀ u ∈ us, u.isSpace = true)
      (white : ink w = [])
      (same : content.trimEnd isLineBlank = c.content.trimEnd isLineBlank)
      (ends : Cursor.LineEnds content s) (rest : Spells r keep (.nodes {} ns) s) :
      Spells r keep (.nodes b (us ++ .leaf s' h (.comment c before) :: ns))
        (w ++ Byte.percent :: (content ++ s))

end TexTidy
