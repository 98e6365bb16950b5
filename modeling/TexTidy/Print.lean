import TexTidy.Print.Paragraph
import TexTidy.Table.Align

/-!
# TexTidy.Print

The layout of a tree. Sequences become paragraphs whose words are wrapped; environments and displayed
formulas stand on lines of their own with their content indented; tables are padded into columns; groups
and verbatim text are kept as they are.

What a space becomes depends only on its neighbours and their hints, so a sequence is printed in one
pass that knows, at each node, the node before it and the node after it.
-/

namespace TexTidy.Print

open Layout (Doc)

/-! ## Decisions -/

/-- The mode of the arguments of a command that is printed in a mode. -/
def argumentMode (hints : Hints) (mode : Mode) : Mode :=
  hints.mode.getD mode

/-- Whether a node is a command that flows with the paragraph around it; in a formula none does. -/
def isInline (mode : Mode) (n : Node) : Bool :=
  n.command?.isSome && n.hints.inParagraph && mode = .text

/-- Whether a node is an argument between delimiters. -/
def isDelimitedArgument : Node → Bool
  | .branch _ _ (.argument _ opening _) _ _ => !opening.isEmpty
  | _ => false

/-- A neighbour that is really there. -/
def present (n : Option Node) : Option Node :=
  n.filter fun m => !m.isMissing

/-- What a space between two nodes becomes. A block breaks lines on its own, so that a space before it
    vanishes and a space after it is a line break. -/
def spaceBetween (preamble : Bool) (previous next : Option Node) : Separator :=
  if next.any Node.standsAlone then .none
  else if previous.any Node.standsAlone then .forced
  else if preamble || next.any (·.hints.breakBefore) || previous.any (·.hints.breakAfter) then .forced
  else .line

/-- Whether a formula can be broken between two nodes that touch. A script stays with its base, and a
    control word stays in front of a letter. -/
def canPart (previous next : Node) : Bool :=
  if (next.command?.map (·.1)) = some [] then false
  else match previous with
    | .branch _ _ (.command _ name) [] _ =>
      if name.head?.any isLetter then !(next.raw.head?.any isLetter) else true
    | _ => true

/-- The break that a formula allows between a node and the node before it, if they touch. The end of a
    table row has to stay the end of a line. -/
def formulaBreak (mode : Mode) (previous : Option Node) (n : Node) : List Step :=
  match mode, previous with
  | .math, some p =>
    if p.isSpace || !canPart p n then []
    else [.ifOpen (if p.hints.breakAfter then .forced else .soft)]
  | _, _ => []

/-- The text of a comment, without blanks at its end. -/
def commentText (c : Comment) : Bytes :=
  Byte.percent :: c.content.trimEnd isLineBlank

/-- The steps of a comment. It stays on its line if it shares that line with something, and whatever
    follows it starts a new line. -/
def commentSteps (c : Comment) (beforeParbreak : Bool) (next : Option Node) : List Step :=
  let shift := if c.leading.isEmpty then [] else [Byte.space]
  (if c.sameLine then [.content (.text (shift ++ commentText c))]
    else [.unlessEmpty .forced, .content (.text (commentText c))]) ++
  (if next.isSome && !beforeParbreak then [.separator .forced] else [])

/-- Whether a sequence ends in a comment, which would hide whatever came next on its line. -/
def endsInComment (nodes : List Node) : Bool :=
  ((Node.trim nodes).getLast?.bind Node.comment?).isSome

/-- Whether a sequence holds `\documentclass`; its parts then stand on lines of their own. -/
def hasDocumentClass (nodes : List Node) : Bool :=
  nodes.any fun n => n.controlName? = some (bytes "documentclass")

/-! ## Parts that are printed from their raw text -/

/-- The layout of raw text: its line breaks are those of the layout, so that it is indented like what is
    around it. Blanks that are alone on a line are dropped. -/
def rawDocs (afterBreak : Bool) : List Bytes → List Doc
  | [] => []
  | piece :: pieces =>
    if piece = [Byte.newline] then .hardLine :: rawDocs true pieces
    else if afterBreak && piece.all isLineBlank then rawDocs false pieces
    else .text piece :: rawDocs false pieces

/-- The column specification of a table: its last argument in braces. -/
def columnSpec (args : List Node) : List Table.Column :=
  let spec? := args.reverse.findSome? fun
    | .branch _ _ (.argument _ opening _) _ content =>
      if opening = [Byte.openBrace] then some (Node.rawAll content) else none
    | _ => none
  (spec?.map Table.columns).getD []

/-- Whether content can be aligned in columns. -/
def isTable (hints : Hints) (content : List Node) : Bool :=
  hints.alignContent && Table.isGrid (Table.Row.split content)

/-- The comment right after the opening of a table, which stays on that line. -/
def tableHead? : List Table.Row → Option Comment
  | row :: _ =>
    if row.isComment then (row.comment.bind Node.comment?).filter (·.sameLine) else none
  | [] => none

/-- The rows of a table, one to a line. The column specification counts only if it has as many columns
    as the table. -/
def tableDoc (measure : Bytes → Nat) (args content : List Node) : Doc :=
  let rows := Table.Row.split content
  let spec := columnSpec args
  let columns := if spec.length = (Table.widestCells measure rows).length then spec else []
  let lineDocs (rows : List Table.Row) : Doc :=
    .indent (.concat ((Table.format measure columns rows).flatMap fun l => [.hardLine, .text l]))
  match tableHead? rows with
  | some c =>
    let shift := if c.leading.isEmpty then [] else [Byte.space]
    .concat [.text (shift ++ commentText c), lineDocs rows.tail]
  | none => .concat [.empty, lineDocs rows]

/-! ## Blocks -/

/-- Content on indented lines between an opening and a closing. `body` is the layout of the content
    without the white space at its ends. A comment that shares the line of the opening stays there. -/
def block (opening closing : Doc) (content : List Node) (body : Doc) : Doc :=
  match Node.trim content with
  | [] => .concat [opening, .hardLine, closing]
  | first :: _ =>
    let staysUp := (first.comment?.map Comment.sameLine).getD false
    let body := if staysUp then body else .concat [.hardLine, body]
    .concat [opening, .indent body, .hardLine, closing]

/-- Content between delimiters, with a line break after a comment that ends it. -/
def delimited (opening closing : Bytes) (content : List Node) (body : Doc) : Doc :=
  let body := if endsInComment content then .concat [body, .hardLine] else body
  .concat [.text opening, body, .text closing]

/-! ## The tree -/

/-- The steps of a node between its neighbours, when `own` are the steps of what it holds itself. -/
def nodeSteps (mode : Mode) (preamble : Bool) (previous next : Option Node) (n : Node)
    (own : List Step) : List Step :=
  match n with
  | .leaf _ _ (.space _) => [.separator (spaceBetween preamble previous next)]
  | .leaf _ _ (.parbreak _) => [.separator .paragraph]
  | .leaf _ _ (.comment c before) => commentSteps c before next
  | _ =>
    (if n.standsAlone || (n.command?.isSome && n.hints.breakBefore) then [.unlessEmpty .forced] else []) ++
    (if isInline mode n then [] else formulaBreak mode previous n) ++ own

mutual

/-- The layout of a node that is printed in a mode. -/
def nodeDoc (measure : Bytes → Nat) (mode : Mode) : Node → Doc
  | .leaf _ _ (.text content) => .text content
  | .leaf _ _ (.space _) => (spaceBetween false none none).doc
  | .leaf _ _ (.parbreak _) => Separator.paragraph.doc
  | .leaf _ _ (.comment c before) => paragraph (commentSteps c before none)
  | .leaf _ _ (.verb escape name delimiter content) =>
    .text (escape ++ name ++ delimiter ++ content ++ delimiter)
  | .leaf _ _ (.foreign _ text) => .text (text.getD [])
  | .leaf _ _ .missing => .text []
  | .branch _ _ .document _ content =>
    paragraph (flow measure mode (hasDocumentClass content) true false none content)
  | .branch s h .group args content =>
    .concat (rawDocs false (Node.branch s h .group args content).rawPieces)
  | .branch _ _ (.argument space opening closing) _ content =>
    let body := paragraph (flow measure mode false false false none content)
    if opening.isEmpty then
      if space.isEmpty then body else .concat [.text [Byte.space], body]
    else delimited opening closing content body
  | .branch _ hints (.command escape name) args _ =>
    let d := Doc.concat [.text (escape ++ name),
      .concat (nodeDocs measure (argumentMode hints mode) args)]
    if hints.hangingIndent then .indent d else d
  | .branch _ hints (.environment name) args content =>
    let opening := Doc.concat [.text (Cursor.beginMarker name), .concat (nodeDocs measure mode args)]
    let closing := Doc.text (Cursor.endMarker name)
    if isTable hints content then
      .concat [opening, tableDoc measure args content, .hardLine, closing]
    else
      block opening closing content
        (paragraph (flow measure mode false true false none content))
  | .branch _ hints (.mathEnvironment name) args content =>
    let opening := Doc.concat [.text (Cursor.beginMarker name), .concat (nodeDocs measure .math args)]
    let closing := Doc.text (Cursor.endMarker name)
    if isTable hints content then
      .concat [opening, tableDoc measure args content, .hardLine, closing]
    else
      block opening closing content
        (paragraph (flow measure .math false true false none content))
  | .branch _ _ (.verbatim name body) args _ =>
    .concat [.text (Cursor.beginMarker name), .concat (nodeDocs measure mode args), .text body,
      .text (Cursor.endMarker name)]
  | .branch _ _ (.displayMath opening closing) _ content =>
    block (.text opening) (.text closing) content
      (paragraph (flow measure .math false true false none content))
  | .branch _ _ (.inlineMath opening closing) _ content =>
    if content.all Node.isPlainSpace then
      .text (if opening = [Byte.dollar] then bytes "$ $" else opening ++ closing)
    else
      delimited opening closing content
        (paragraph (flow measure .math false false false none content))

/-- The layouts of the nodes of a sequence. -/
def nodeDocs (measure : Bytes → Nat) (mode : Mode) : List Node → List Doc
  | [] => []
  | n :: ns => nodeDoc measure mode n :: nodeDocs measure mode ns

/-- The steps of a sequence that continues after `previous`. With `trim`, white space at the ends of
    the sequence is left out; `inked` says whether something else was met before. -/
def flow (measure : Bytes → Nat) (mode : Mode) (preamble trim inked : Bool) (previous : Option Node) :
    List Node → List Step
  | [] => []
  | n :: ns =>
    (if trim && n.isSpace && (!inked || ns.all Node.isSpace) then []
      else nodeSteps mode preamble (present previous) (present ns.head?) n
        (if isInline mode n then inlineSteps measure mode n else [.content (nodeDoc measure mode n)])) ++
    flow measure mode preamble trim (inked || !n.isSpace) (some n) ns

/-- The steps of a command that flows with the paragraph around it. -/
def inlineSteps (measure : Bytes → Nat) (mode : Mode) : Node → List Step
  | .branch _ hints (.command escape name) args _ =>
    .content (.text (escape ++ name)) :: argumentSteps measure (argumentMode hints mode) args
  | _ => []

/-- The steps of arguments that flow with the paragraph around their command. -/
def argumentSteps (measure : Bytes → Nat) (mode : Mode) : List Node → List Step
  | [] => []
  | n :: ns =>
    (if isDelimitedArgument n then delimitedSteps measure mode n
      else [.content (nodeDoc measure mode n)]) ++
    argumentSteps measure mode ns

/-- The steps of an argument between delimiters that flows with the paragraph around its command. -/
def delimitedSteps (measure : Bytes → Nat) (mode : Mode) : Node → List Step
  | .branch _ _ (.argument _ opening closing) _ content =>
    .content (.text opening) :: flow measure mode false false false none content ++
    (if endsInComment content then [.separator .forced] else []) ++ [.content (.text closing)]
  | _ => []

end

/-- The layout of a tree. -/
def doc (measure : Bytes → Nat) (n : Node) : Doc :=
  nodeDoc measure .text n

end TexTidy.Print
