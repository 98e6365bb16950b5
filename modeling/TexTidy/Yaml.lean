import TexTidy.Yaml.Scalar

/-!
# TexTidy.Yaml

YAML documents: mappings, sequences and scalars, in block or in flow style. Anchors, tags, block
scalars and complex keys are not read; a text that uses them counts as malformed.

Structure in block style comes from indentation. A part of a block is read from a text that starts at
the beginning of a line; a part on the same line as its key is read from there on. Every step of the
reader moves on in the text or goes one level deeper into it, and a bound linear in the length of the
text is always enough.
-/

namespace TexTidy.Yaml

/-- A YAML value. -/
inductive Value where
  | scalar (s : Scalar)
  | sequence (items : List Value)
  | mapping (entries : List (Scalar × Value))
  deriving Repr

instance : Inhabited Value := ⟨.scalar ⟨true, []⟩⟩

/-- The value of nothing at all. -/
def Value.null : Value := .scalar ⟨true, []⟩

/-- Whether a scalar stands for no value. -/
def Scalar.isNull (s : Scalar) : Bool :=
  s.plain && [[], bytes "~", bytes "null", bytes "Null", bytes "NULL"].contains s.text

/-- Whether a value is no value. -/
def Value.isNull : Value → Bool
  | .scalar s => s.isNull
  | _ => false

/-! ## Flow style -/

/-- Skips blanks, line breaks and comments inside a flow collection. -/
def skipFlow : Nat → List Char → List Char
  | 0, cs => cs
  | _ + 1, [] => []
  | steps + 1, c :: cs =>
    if isGap c || c == '\n' then skipFlow steps cs
    else if c == '#' then skipFlow steps (nextLine cs)
    else c :: cs

/-- Skips all that means nothing inside a flow collection. -/
def skipFlowAll (cs : List Char) : List Char :=
  skipFlow (cs.length + 1) cs

/-- Reads a scalar inside a flow collection. -/
def flowScalar? (cs : List Char) : Option (Scalar × List Char) :=
  if atQuote cs then quotedScalar? cs
  else if startsPlain true cs then
    let (chars, rest) := plainScalar true 0 (cs.length + 1) cs
    some (.ofChars true chars, rest)
  else none

mutual

/-- Reads a value inside a flow collection. -/
def flowValue? : Nat → List Char → Option (Value × List Char)
  | 0, _ => none
  | steps + 1, cs =>
    match cs with
    | '[' :: rest => (flowItems? steps (skipFlowAll rest)).map fun (vs, rest) => (.sequence vs, rest)
    | '\x7b' :: rest => (flowEntries? steps (skipFlowAll rest)).map fun (es, rest) => (.mapping es, rest)
    | _ => (flowScalar? cs).map fun (s, rest) => (.scalar s, rest)

/-- Reads the items of a sequence up to its closing bracket. -/
def flowItems? : Nat → List Char → Option (List Value × List Char)
  | 0, _ => none
  | _ + 1, ']' :: rest => some ([], rest)
  | steps + 1, cs => do
    let (v, rest) ← flowValue? steps cs
    match skipFlowAll rest with
    | ']' :: rest => return ([v], rest)
    | ',' :: rest =>
      let (vs, rest) ← flowItems? steps (skipFlowAll rest)
      return (v :: vs, rest)
    | _ => none

/-- Reads the entries of a mapping up to its closing brace. A key without a value has none. -/
def flowEntries? : Nat → List Char → Option (List (Scalar × Value) × List Char)
  | 0, _ => none
  | _ + 1, '\x7d' :: rest => some ([], rest)
  | steps + 1, cs => do
    let (key, rest) ← flowScalar? cs
    let (v, rest) ← match skipFlowAll rest with
      | ':' :: rest =>
        let rest := skipFlowAll rest
        if rest.head? == some ',' || rest.head? == some '\x7d' then some (Value.null, rest)
        else flowValue? steps rest
      | rest => some (Value.null, rest)
    match skipFlowAll rest with
    | '\x7d' :: rest => return ([(key, v)], rest)
    | ',' :: rest =>
      let (es, rest) ← flowEntries? steps (skipFlowAll rest)
      return ((key, v) :: es, rest)
    | _ => none

end

/-! ## Block style -/

/-- The key at the start of a line, and what comes after its colon. -/
def key? (cs : List Char) : Option (Scalar × List Char) := do
  let (key, rest) ←
    if atQuote cs then quotedScalar? cs
    else if startsPlain false cs then
      let (chars, rest) := plainLine false true cs
      some (.ofChars true (trimEnd chars), rest)
    else none
  match rest.dropWhile isGap with
  | ':' :: rest => if atBlank rest then some (key, rest) else none
  | _ => none

/-- Whether an item of a sequence starts here. -/
def atItem : List Char → Bool
  | '-' :: cs => atBlank cs
  | _ => false

/-- Reads a value that stands on the current line and is no block collection. Further lines of a plain
    scalar are indented by at least `indent`. The result goes on at the beginning of a line. -/
def inlineValue? (indent : Nat) (cs : List Char) : Option (Value × List Char) := do
  let (v, rest) ←
    if cs.head? == some '[' || cs.head? == some '\x7b' then flowValue? (2 * cs.length + 2) cs
    else if atQuote cs then (quotedScalar? cs).map fun (s, rest) => (Value.scalar s, rest)
    else if startsPlain false cs then
      let (chars, rest) := plainScalar false indent (cs.length + 1) cs
      some (.scalar (.ofChars true chars), rest)
    else none
  return (v, ← endLine? rest)

mutual

/-- Reads a value from the beginning of a line. It has to be indented by at least `indent`; if nothing
    is, there is no value. -/
def blockValue? (indent : Nat) : Nat → List Char → Option (Value × List Char)
  | 0, _ => none
  | steps + 1, cs =>
    match peekLine? cs with
    | none => some (.null, cs)
    | some (depth, body) =>
      if depth < indent then some (.null, cs)
      else if atItem body then
        (blockItems? depth steps cs).map fun (vs, rest) => (.sequence vs, rest)
      else if (key? body).isSome then
        (blockEntries? depth steps cs).map fun (es, rest) => (.mapping es, rest)
      else inlineValue? indent body

/-- Reads the items of a sequence whose dashes are indented by `depth`. What comes after a dash is read
    as if it stood on a line of its own. -/
def blockItems? (depth : Nat) : Nat → List Char → Option (List Value × List Char)
  | 0, _ => none
  | steps + 1, cs =>
    match peekLine? cs with
    | none => some ([], cs)
    | some (d, body) =>
      if d < depth || (d == depth && !atItem body) then some ([], cs)
      else if depth < d then none
      else do
        let (v, rest) ← blockValue? (depth + 1) steps (List.replicate (depth + 1) ' ' ++ body.drop 1)
        let (vs, rest) ← blockItems? depth steps rest
        return (v :: vs, rest)

/-- Reads the entries of a mapping whose keys are indented by `depth`. The value of a key stands on the
    line of the key or on deeper lines; only the items of a sequence may be as deep as the key. -/
def blockEntries? (depth : Nat) : Nat → List Char → Option (List (Scalar × Value) × List Char)
  | 0, _ => none
  | steps + 1, cs =>
    match peekLine? cs with
    | none => some ([], cs)
    | some (d, body) =>
      if d < depth then some ([], cs)
      else if depth < d then none
      else do
        let (key, rest) ← key? body
        let (v, rest) ← match endLine? rest with
          | some rest =>
            match peekLine? rest with
            | some (d, body) =>
              if d == depth && atItem body then
                (blockItems? depth steps rest).map fun (vs, rest) => (Value.sequence vs, rest)
              else blockValue? (depth + 1) steps rest
            | none => some (.null, rest)
          | none => inlineValue? (depth + 1) (rest.dropWhile isGap)
        let (es, rest) ← blockEntries? depth steps rest
        return ((key, v) :: es, rest)

end

/-! ## Documents -/

/-- Whether YAML allows a character. -/
def isAllowed (c : Char) : Bool :=
  let n := c.toNat
  n == 0x09 || n == 0x0A || n == 0x0D || (0x20 ≤ n && n ≤ 0x7E) || n == 0x85 ||
    (0xA0 ≤ n && n ≤ 0xFFFD && n != 0xFEFF) || 0x10000 ≤ n

/-- A text with newlines as its only line breaks. -/
def normalizeBreaks : List Char → List Char
  | [] => []
  | '\r' :: '\n' :: cs => '\n' :: normalizeBreaks cs
  | '\r' :: cs => '\n' :: normalizeBreaks cs
  | c :: cs => c :: normalizeBreaks cs

/-- Skips a marker in front of the document. -/
def skipDivider (cs : List Char) : List Char :=
  let rest := skipBlank (cs.length + 1) cs
  if rest.take 3 == ['-', '-', '-'] && atBlank (rest.drop 3) then
    List.replicate 3 ' ' ++ rest.drop 3
  else cs

/-- Whether a text holds nothing but blanks and comments. -/
def isVoid (src : Bytes) : Bool :=
  (peekLine? (normalizeBreaks (Utf8.decode (Utf8.dropMark src)))).isNone

/-- The first document of a text, if the text is well-formed. An empty text holds no value. -/
def parse? (src : Bytes) : Option Value := do
  let src := Utf8.dropMark src
  if !Utf8.isValid src then none
  let cs := Utf8.decode src
  if !cs.all isAllowed then none
  let cs := skipDivider (normalizeBreaks cs)
  let (v, rest) ← blockValue? 0 (4 * cs.length + 4) cs
  if (peekLine? rest).isSome then none
  return v

end TexTidy.Yaml
