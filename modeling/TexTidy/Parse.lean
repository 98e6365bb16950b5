import TexTidy.Node
import TexTidy.Registry

/-!
# TexTidy.Parse

From a source to the tree of its document. Arguments are taken as the signatures of the registry say; a
command that is not in the registry takes none.

Everything that can hold content (a group, an argument, an environment, a formula) reads it through a
`Reader`. The functions for these parts are plain functions of the reader, and only `content` is
recursive: it hands itself, with one step less to spend, to the part it meets. Each step moves past at
least one byte, so as many steps as there are bytes are always enough, and `Cause.tooDeep` does not
occur.
-/

namespace TexTidy.Parse

/-! ## Where a sequence ends -/

/-- What closes a sequence. -/
inductive Closer where
  /-- Only the end of the source. -/
  | document
  /-- A closing brace. -/
  | brace
  /-- A closing bracket, once the brackets opened inside are closed. -/
  | bracket (depth : Nat)
  /-- The command `\end`. -/
  | environment
  /-- A dollar sign; of a double one only the first half counts. -/
  | dollar
  /-- A double dollar sign. -/
  | dollars
  /-- The command of this name. -/
  | command (name : Bytes)
  deriving DecidableEq, Repr

/-- What a sequence waits for after a token of its own level; none if the token closes it. -/
def Closer.pass (k : Token.Kind) : Closer → Option Closer
  | .document => some .document
  | .brace => if k = .closeBrace then none else some .brace
  | .bracket depth =>
    if k = .openBracket then some (.bracket (depth + 1))
    else if k = .closeBracket then
      match depth with
      | 0 => none
      | d + 1 => some (.bracket d)
    else some (.bracket depth)
  | .environment => if k = .command (bytes "end") then none else some .environment
  | .dollar => if k = .dollar ∨ k = .dollars then none else some .dollar
  | .dollars => if k = .dollars then none else some .dollars
  | .command name => if k = .command name then none else some (.command name)

/-- A sequence that was read, the token that ended it, and the places before and after that token. -/
structure Sequence where
  nodes : List Node
  last : Token
  before : Cursor
  cursor : Cursor

/-- Whether a sequence ended because the source did. -/
def Sequence.isOpen (s : Sequence) : Bool :=
  s.last.kind = .endOfInput

/-- A way to read the content of a container in a mode, up to what closes it. -/
abbrev Reader := Mode → Closer → Cursor → Except Fault Sequence

/-! ## Arguments -/

/-- The backslash of a command. -/
def escape : Bytes := [Byte.backslash]

/-- Commands that delimit content; they are never an argument. -/
def isDelimiter (name : Bytes) : Bool :=
  [bytes "begin", bytes "end", bytes "(", bytes ")", bytes "[", bytes "]"].contains name

/-- Content up to the closing brace. The opening brace stands at `start`, right before the cursor. -/
def group (read : Reader) (mode : Mode) (start : Nat) (c : Cursor) :
    Except Fault (List Node × Cursor) := do
  let body ← read mode .brace c
  if body.isOpen then throw ⟨start, .groupUnclosed, body.cursor.pos⟩
  return (body.nodes, body.cursor)

/-- A star, if one is next. -/
def starArgument (c : Cursor) : Option Node × Cursor :=
  if c.peek? = some Byte.star then
    let next := c.advance 1
    let span : Span := ⟨c.pos, next.pos⟩
    (some (.branch span {} (.argument [] [] []) [] [.leaf span {} (.text [Byte.star])]), next)
  else (none, c)

/-- An optional argument, if an opening bracket is next. -/
def optionalArgument (read : Reader) (mode : Mode) (c : Cursor) :
    Except Fault (Option Node × Cursor) := do
  if c.peek? ≠ some Byte.openBracket then return (none, c)
  let body ← read mode (.bracket 0) (c.advance 1)
  if body.isOpen then throw ⟨c.pos, .optionalUnclosed, body.cursor.pos⟩
  let shape := Shape.argument [] ArgKind.optional.opening ArgKind.optional.closing
  return (some (.branch ⟨c.pos, body.cursor.pos⟩ {} shape [] body.nodes), body.cursor)

/-- An argument without braces, one node long. -/
def bareArgument (c : Cursor) (space : Bytes) (node : Node) (stop : Nat) : Node :=
  .branch ⟨c.pos, stop⟩ {} (.argument space [] []) [] [node]

/-- A mandatory argument: a group, a single command or a single character, after optional space. It is
    absent if something else is next, and the space is then left in place. -/
def mandatoryArgument (r : Registry) (read : Reader) (mode : Mode) (c : Cursor) :
    Except Fault (Option Node × Cursor) := do
  let (space, here) := c.skipSpace
  match here.peek? with
  | none => return (none, c)
  | some b =>
    if b = Byte.openBrace then
      let (nodes, stop) ← group read mode here.pos (here.advance 1)
      let shape := Shape.argument space ArgKind.mandatory.opening ArgKind.mandatory.closing
      return (some (.branch ⟨c.pos, stop.pos⟩ {} shape [] nodes), stop)
    else if b = Byte.backslash then
      let (t, stop) ← here.token
      match t.kind with
      | .command name =>
        if r.isVerb name || isDelimiter name then return (none, c)
        let node := Node.branch t.span {} (.command escape name) [] []
        return (some (bareArgument c space node stop.pos), stop)
      | _ => return (none, c)
    else if b ≠ 0 && !isActive b && !isBlank b then
      let (char, stop) := here.character
      let node := Node.leaf ⟨here.pos, stop.pos⟩ {} (.text char)
      return (some (bareArgument c space node stop.pos), stop)
    else return (none, c)

/-- One argument of a signature, if it is present. -/
def argument (r : Registry) (read : Reader) (mode : Mode) (kind : ArgKind) (c : Cursor) :
    Except Fault (Option Node × Cursor) :=
  match kind with
  | .star => .ok (starArgument c)
  | .optional => optionalArgument read mode c
  | .mandatory => mandatoryArgument r read mode c

/-- The arguments of a signature that are present. -/
def arguments (r : Registry) (read : Reader) (mode : Mode) :
    List ArgKind → Cursor → Except Fault (List Node × Cursor)
  | [], c => .ok ([], c)
  | kind :: kinds, c => do
    let (arg?, c) ← argument r read mode kind c
    let (args, c) ← arguments r read mode kinds c
    return (arg?.toList ++ args, c)

/-! ## Commands, environments and formulas -/

/-- A command whose name starts at `start` and ends at the cursor. -/
def command (r : Registry) (read : Reader) (mode : Mode) (start : Nat) (name : Bytes) (c : Cursor) :
    Except Fault (Node × Cursor) := do
  match r.command? name with
  | none => return (.branch ⟨start, c.pos⟩ {} (.command escape name) [] [], c)
  | some e =>
    let (args, stop) ← arguments r read (e.spec.mode?.getD mode) e.args c
    return (.branch ⟨start, stop.pos⟩ {} (.command escape name) args [], stop)

/-- A script of a formula, which takes one argument. -/
def script (r : Registry) (read : Reader) (mode : Mode) (start : Nat) (char : UInt8) (c : Cursor) :
    Except Fault (Node × Cursor) := do
  let (args, stop) ← arguments r read mode [.mandatory] c
  return (.branch ⟨start, stop.pos⟩ {} (.command [] [char]) args [], stop)

/-- Verbatim text between delimiters. Of all such commands only `\verb` has a starred form. -/
def verb (start : Nat) (name : Bytes) (c : Cursor) : Except Fault (Node × Cursor) := do
  let starred := name = bytes "verb" ∧ c.peek? = some Byte.star
  let name := if starred then bytes "verb*" else name
  let ((delimiter, content), stop) ← (if starred then c.advance 1 else c).delimited
  return (.leaf ⟨start, stop.pos⟩ {} (.verb escape name delimiter content), stop)

/-- An environment whose `\begin` starts at `start` and ends at the cursor. -/
def environment (r : Registry) (read : Reader) (mode : Mode) (start : Nat) (c : Cursor) :
    Except Fault (Node × Cursor) := do
  let (name, c) ← c.environmentName
  let entry := (r.environment? name).getD ⟨{}, []⟩
  let (args, c) ← arguments r read mode entry.args c
  if entry.spec.verbatim then
    match c.verbatimBody name with
    | none => throw ⟨start, .verbatimUnclosed name, c.pos⟩
    | some (body, stop) => return (.branch ⟨start, stop.pos⟩ {} (.verbatim name body) args [], stop)
  else
    let body ← read (if entry.spec.math then .math else mode) .environment c
    if body.isOpen then throw ⟨start, .environmentUnclosed name, body.cursor.pos⟩
    let (found, stop) ← body.cursor.environmentName
    if found ≠ name then
      throw ⟨body.last.span.start, .environmentMismatch found name, stop.pos⟩
    let shape := if entry.spec.math then Shape.mathEnvironment name else .environment name
    return (.branch ⟨start, stop.pos⟩ {} shape args body.nodes, stop)

/-- A formula between `\(` and `\)`. -/
def inlineParen (read : Reader) (start : Nat) (c : Cursor) : Except Fault (Node × Cursor) := do
  let body ← read .math (.command (bytes ")")) c
  if body.isOpen then throw ⟨start, .inlineUnclosed, body.cursor.pos⟩
  let shape := Shape.inlineMath (bytes "\\(") (bytes "\\)")
  return (.branch ⟨start, body.cursor.pos⟩ {} shape [] body.nodes, body.cursor)

/-- A formula between dollar signs. If a double dollar sign ends it, the second one is left in place
    and opens the next formula. -/
def inlineDollar (read : Reader) (start : Nat) (c : Cursor) : Except Fault (Node × Cursor) := do
  let body ← read .math .dollar c
  if body.isOpen then throw ⟨start, .inlineUnclosed, body.cursor.pos⟩
  let stop := if body.last.kind = .dollars then body.before.advance 1 else body.cursor
  let shape := Shape.inlineMath [Byte.dollar] [Byte.dollar]
  return (.branch ⟨start, stop.pos⟩ {} shape [] body.nodes, stop)

/-- A displayed formula between `\[` and `\]`. -/
def displayBracket (read : Reader) (start : Nat) (c : Cursor) : Except Fault (Node × Cursor) := do
  let body ← read .math (.command (bytes "]")) c
  if body.isOpen then throw ⟨start, .displayUnclosed, body.cursor.pos⟩
  let shape := Shape.displayMath (bytes "\\[") (bytes "\\]")
  return (.branch ⟨start, body.cursor.pos⟩ {} shape [] body.nodes, body.cursor)

/-- A displayed formula between double dollar signs. -/
def displayDollars (read : Reader) (start : Nat) (c : Cursor) : Except Fault (Node × Cursor) := do
  let body ← read .math .dollars c
  if body.isOpen then throw ⟨start, .displayUnclosed, body.cursor.pos⟩
  let shape := Shape.displayMath (bytes "$$") (bytes "$$")
  return (.branch ⟨start, body.cursor.pos⟩ {} shape [] body.nodes, body.cursor)

/-- What a double dollar sign opens: a displayed formula, or an empty one if it is never closed. The
    fault to be replaced is the only one that is about the double dollar sign itself. -/
def dollars (read : Reader) (start : Nat) (c : Cursor) : Except Fault (Node × Cursor) :=
  match displayDollars read start c with
  | .error f =>
    if f.offset = start then
      .ok (.branch ⟨start, c.pos⟩ {} (.inlineMath [Byte.dollar] [Byte.dollar]) [] [], c)
    else .error f
  | .ok r => .ok r

/-! ## The document -/

/-- The node that begins with a command. -/
def control (r : Registry) (read : Reader) (mode : Mode) (span : Span) (name : Bytes) (c : Cursor) :
    Except Fault (Node × Cursor) :=
  if name = bytes "begin" then environment r read mode span.start c
  else if name = bytes "end" then do
    let (found, stop) ← c.environmentName
    throw ⟨span.start, .unexpectedEnd found, stop.pos⟩
  else if name = bytes "(" then inlineParen read span.start c
  else if name = bytes "[" then displayBracket read span.start c
  else if name = bytes ")" ∨ name = bytes "]" then
    throw ⟨span.start, .unexpectedCommand name, c.pos⟩
  else if r.isVerb name then verb span.start name c
  else command r read mode span.start name c

/-- The node that begins with a token; `c` is the place after it. The end of input begins no node, and
    no sequence asks for one. -/
def item (r : Registry) (read : Reader) (mode : Mode) (t : Token) (c : Cursor) :
    Except Fault (Node × Cursor) :=
  match t.kind with
  | .endOfInput => .ok (.leaf t.span {} .missing, c)
  | .text content => .ok (.leaf t.span {} (.text content), c)
  | .openBracket => .ok (.leaf t.span {} (.text [Byte.openBracket]), c)
  | .closeBracket => .ok (.leaf t.span {} (.text [Byte.closeBracket]), c)
  | .space raw => .ok (.leaf t.span {} (.space raw), c)
  | .parbreak raw => .ok (.leaf t.span {} (.parbreak raw), c)
  | .comment comment => .ok (.leaf t.span {} (.comment comment false), c)
  | .symbol char =>
    if mode = .math ∧ (char = Byte.caret ∨ char = Byte.underscore) then
      script r read mode t.span.start char c
    else .ok (.leaf t.span {} (.text [char]), c)
  | .openBrace => do
    let (nodes, stop) ← group read mode t.span.start c
    return (.branch ⟨t.span.start, stop.pos⟩ {} .group [] nodes, stop)
  | .closeBrace => throw ⟨t.span.start, .unmatchedBrace, c.pos⟩
  | .dollar => inlineDollar read t.span.start c
  | .dollars => dollars read t.span.start c
  | .command name => control r read mode t.span name c

/-- Puts a node in front of a sequence. A comment learns whether a paragraph break follows it. -/
def link : Node → List Node → List Node
  | .leaf s h (.comment c before), ns =>
    .leaf s h (.comment c (before || (ns.head?.map Node.isParbreak).getD false)) :: ns
  | n, ns => n :: ns

/-- Reads nodes until a token closes the sequence or the source ends. -/
def content (r : Registry) : Nat → Reader
  | 0, _, _, c => .error ⟨c.pos, .tooDeep, c.pos⟩
  | steps + 1, mode, closer, c => do
    let (t, next) ← c.token
    match closer.pass t.kind with
    | none => return ⟨[], t, c, next⟩
    | some closer =>
      if t.kind = .endOfInput then return ⟨[], t, c, next⟩
      let (n, next) ← item r (content r steps) mode t next
      let tail ← content r steps mode closer next
      return { tail with nodes := link n tail.nodes }

/-- Reads a sequence, with as many steps as the rest of the source can take. -/
def sequence (r : Registry) : Reader := fun mode closer c =>
  content r (c.rest.length + 1) mode closer c

/-- Reads a document from an offset on: the document or the error, and the offset where reading
    stopped. The span of the document is the whole source in any case. -/
def documentFrom (r : Registry) (src : Bytes) (pos : Nat) : Except SyntaxError Node × Nat :=
  match sequence r .text .document (.ofOffset src pos) with
  | .ok body => (.ok (.branch ⟨0, src.length⟩ {} .document [] body.nodes), body.cursor.pos)
  | .error f => (.error (f.locate src), f.stopped)

/-- Reads a document. -/
def document (r : Registry) (src : Bytes) : Except SyntaxError Node :=
  (documentFrom r src 0).1

end TexTidy.Parse
