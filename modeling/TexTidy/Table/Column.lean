import TexTidy.Text.Space

/-!
# TexTidy.Table.Column

Column specifications of tables, like `|l|c|r|` or `*{3}{c}@{}p{2cm}`. A specification is first read
into its parts, and the parts are then expanded into columns. Repetitions can ask for any number of
columns, so the expansion stops at `columnLimit`.
-/

namespace TexTidy.Table

/-- How the cells of a column are aligned. -/
inductive Alignment where
  | left
  | center
  | right
  | paragraph
  deriving DecidableEq, Repr

/-- The letter of an alignment; all kinds of paragraph columns share one. -/
def Alignment.letter : Alignment → UInt8
  | .left => 0x6C
  | .center => 0x63
  | .right => 0x72
  | .paragraph => 0x70

/-- A column of a table. -/
structure Column where
  align : Alignment
  borderLeft : Bool := false
  borderRight : Bool := false
  deriving DecidableEq, Repr

/-- A part of a column specification. -/
inductive SpecPart where
  /-- A vertical bar. -/
  | bar
  /-- A column, and whether a bar stands right before it. -/
  | column (align : Alignment) (afterBar : Bool)
  /-- A repetition. -/
  | times (count : Nat) (body : List SpecPart)
  deriving Repr

/-! ## Reading a specification -/

/-- What stands before the brace that closes a group, and what stands after it. A group that is never
    closed goes to the end. -/
def untilClosed (depth : Nat) : Bytes → Bytes × Bytes
  | [] => ([], [])
  | c :: s =>
    if c = Byte.closeBrace ∧ depth = 0 then ([], s)
    else
      let depth :=
        if c = Byte.openBrace then depth + 1
        else if c = Byte.closeBrace then depth - 1
        else depth
      let (inside, rest) := untilClosed depth s
      (c :: inside, rest)

/-- The braced group at the start of a text, if there is one, and the rest of the text. -/
def bracedGroup : Bytes → Bytes × Bytes
  | Byte.openBrace :: s => untilClosed 0 s
  | s => ([], s)

/-- The value of decimal digits; none for any other text, the empty one included. -/
def digitsValue? (s : Bytes) : Option Nat :=
  if s.isEmpty || !s.all isDigit then none
  else some (s.foldl (fun n c => 10 * n + (c.toNat - 0x30)) 0)

/-- The largest count that is read as a number. -/
def countLimit : Nat := Nat.pow 2 63 - 1

/-- How often a repetition is repeated: never, if the count is no number, is negative or too large. -/
def repetitions (count : Bytes) : Nat :=
  let digits := match count with
    | Byte.plus :: s => s
    | s => s
  match digitsValue? digits with
  | some n => if n ≤ countLimit then n else 0
  | none => 0

/-- The alignment of a column letter that takes no argument. -/
def plainColumn? (c : UInt8) : Option Alignment :=
  if c = 0x6C then some .left
  else if c = 0x63 then some .center
  else if c = 0x72 then some .right
  else if c = 0x58 then some .paragraph
  else none

/-- Whether a letter stands for a paragraph column of a given width. -/
def isSizedColumn (c : UInt8) : Bool :=
  c = 0x70 || c = 0x6D || c = 0x62

/-- Whether a sign inserts material between columns. -/
def isInsertion (c : UInt8) : Bool :=
  c = 0x40 || c = 0x21 || c = 0x3E || c = 0x3C

/-- Reads the parts of a specification without white space. The body of a repetition is a specification
    of its own: bytes that were apart may form white space now that they stand side by side, and it is
    removed from the body again. Each step takes at least one byte, so the length of the text bounds the
    steps. -/
def specParts : Nat → Bool → Bytes → List SpecPart
  | 0, _, _ => []
  | _ + 1, _, [] => []
  | steps + 1, afterBar, c :: s =>
    if c = Byte.bar then .bar :: specParts steps true s
    else if c = Byte.star then
      let (count, s) := bracedGroup s
      let (body, s) := bracedGroup s
      let body := specParts steps false (Text.removeSpaces body)
      .times (repetitions count) body :: specParts steps false s
    else if isSizedColumn c then
      .column .paragraph afterBar :: specParts steps false (bracedGroup s).2
    else if isInsertion c then specParts steps false (bracedGroup s).2
    else match plainColumn? c with
      | some align => .column align afterBar :: specParts steps false s
      | none => specParts steps false s

/-! ## Expanding a specification -/

/-- The most columns a specification expands to. -/
def columnLimit : Nat := 256

/-- Gives the last column a border on its right. -/
def closeBorder (columns : List Column) : List Column :=
  match columns.getLast? with
  | none => []
  | some last => columns.dropLast ++ [{ last with borderRight := true }]

mutual

/-- The columns after one more part. -/
def expandPart (columns : List Column) : SpecPart → List Column
  | .bar => closeBorder columns
  | .column align afterBar => columns ++ [{ align, borderLeft := afterBar }]
  | .times count body =>
    let more := List.flatten (List.replicate (min count columnLimit) (expandParts [] body))
    (columns ++ more).take columnLimit

/-- The columns after several more parts. -/
def expandParts (columns : List Column) : List SpecPart → List Column
  | [] => columns
  | p :: ps =>
    if columnLimit ≤ columns.length then columns else expandParts (expandPart columns p) ps

end

/-- The columns of a specification. -/
def columns (spec : Bytes) : List Column :=
  let spec := Text.removeSpaces spec
  expandParts [] (specParts spec.length false spec)

end TexTidy.Table
