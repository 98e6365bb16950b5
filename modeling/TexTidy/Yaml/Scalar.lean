import TexTidy.Text.Utf8

/-!
# TexTidy.Yaml.Scalar

The scalars of YAML texts: plain ones, and ones in single or double quotes. A scalar can go over
several lines; a line break inside it then counts as a space, and an empty line as a line break.
-/

namespace TexTidy.Yaml

/-- A scalar, and whether it was written without quotes. -/
structure Scalar where
  plain : Bool
  text : Bytes
  deriving DecidableEq, Repr

/-- The scalar of a run of characters. -/
def Scalar.ofChars (plain : Bool) (cs : List Char) : Scalar :=
  ⟨plain, bytes (String.ofList cs)⟩

/-! ## Characters -/

/-- A blank inside a line. -/
def isGap (c : Char) : Bool :=
  c == ' ' || c == '\t'

/-- Whether a text is at its end, at a blank or at the end of a line. -/
def atBlank : List Char → Bool
  | [] => true
  | c :: _ => isGap c || c == '\n'

/-- The signs that structure a flow collection. -/
def isFlowSign (c : Char) : Bool :=
  [',', '[', ']', '\x7b', '\x7d'].contains c

/-- The signs that no plain scalar starts with. -/
def isReserved (c : Char) : Bool :=
  isFlowSign c || ['#', '&', '*', '!', '|', '>', '\'', '"', '%', '@', '\x60'].contains c

/-- Whether a colon in front of `cs` ends a key. -/
def endsKey (flow : Bool) (cs : List Char) : Bool :=
  atBlank cs || (flow && cs.head?.any isFlowSign)

/-- Whether a plain scalar can start here. -/
def startsPlain (flow : Bool) : List Char → Bool
  | [] => false
  | c :: cs =>
    if c == '-' || c == '?' || c == ':' then !endsKey flow cs
    else !isReserved c && !isGap c && c != '\n'

/-- A line without blanks at its end. -/
def trimEnd (cs : List Char) : List Char :=
  (cs.reverse.dropWhile isGap).reverse

/-! ## Lines -/

/-- What comes after the current line. -/
def nextLine (cs : List Char) : List Char :=
  (cs.dropWhile (· != '\n')).drop 1

/-- What is left of a line that holds nothing more than blanks or a comment: the lines after it. -/
def endLine? (cs : List Char) : Option (List Char) :=
  match cs.dropWhile isGap with
  | [] => some []
  | c :: rest => if c == '\n' then some rest else if c == '#' then some (nextLine rest) else none

/-- Skips lines that hold nothing but blanks; returns how many there were. -/
def skipEmpty : Nat → List Char → Nat × List Char
  | 0, cs => (0, cs)
  | steps + 1, cs =>
    match cs.dropWhile isGap with
    | '\n' :: rest =>
      let (n, rest) := skipEmpty steps rest
      (n + 1, rest)
    | _ => (0, cs)

/-- Skips lines that hold nothing but blanks or a comment. -/
def skipBlank : Nat → List Char → List Char
  | 0, cs => cs
  | steps + 1, cs =>
    match endLine? cs with
    | some rest => if rest.length < cs.length then skipBlank steps rest else rest
    | none => cs

/-- Whether a marker that divides documents stands here. -/
def atDivider (cs : List Char) : Bool :=
  (cs.take 3 == ['-', '-', '-'] || cs.take 3 == ['.', '.', '.']) && atBlank (cs.drop 3)

/-- The next line that holds something: its indentation, and the text from its first character on. None
    at the end of the document. -/
def peekLine? (cs : List Char) : Option (Nat × List Char) :=
  let cs := skipBlank (cs.length + 1) cs
  let indent := (cs.takeWhile (· == ' ')).length
  let body := cs.drop indent
  if body.isEmpty || (indent == 0 && atDivider body) then none else some (indent, body)

/-! ## Plain scalars -/

/-- The part of a plain scalar that stands on one line, and what comes after it. -/
def plainLine (flow afterBlank : Bool) : List Char → List Char × List Char
  | [] => ([], [])
  | c :: cs =>
    if c == '\n' || (c == '#' && afterBlank) || (c == ':' && endsKey flow cs) ||
        (flow && isFlowSign c) then ([], c :: cs)
    else
      let (line, rest) := plainLine flow (isGap c) cs
      (c :: line, rest)

/-- What joins two lines of a scalar with a number of empty lines between them. -/
def fold (emptyLines : Nat) : List Char :=
  if emptyLines == 0 then [' '] else List.replicate emptyLines '\n'

/-- Reads a plain scalar. In a flow collection it goes on as long as it can; elsewhere only over lines
    that are indented by at least `indent`. -/
def plainScalar (flow : Bool) (indent : Nat) : Nat → List Char → List Char × List Char
  | 0, cs => ([], cs)
  | steps + 1, cs =>
    let (line, rest) := plainLine flow true cs
    let line := trimEnd line
    match rest with
    | '\n' :: more =>
      let (emptyLines, more) := skipEmpty more.length more
      let depth := (more.takeWhile (· == ' ')).length
      let body := more.dropWhile isGap
      let goesOn :=
        if flow then startsPlain true body
        else indent ≤ depth && !body.isEmpty && body.head? != some '#' && !(depth == 0 && atDivider body)
      if goesOn then
        let (next, rest) := plainScalar flow indent steps body
        (line ++ fold emptyLines ++ next, rest)
      else (line, rest)
    | _ => (line, rest)

/-! ## Quoted scalars -/

/-- Folds the line breaks inside a quoted scalar. Blanks around a line break vanish with it. -/
def foldQuoted : Nat → List Char → List Char
  | 0, cs => cs
  | steps + 1, cs =>
    match cs.dropWhile (· != '\n') with
    | [] => cs
    | _ :: rest =>
      let (emptyLines, rest) := skipEmpty rest.length rest
      trimEnd (cs.takeWhile (· != '\n')) ++ fold emptyLines ++
        foldQuoted steps (rest.dropWhile isGap)

/-- What stands before the closing single quote; a quote inside is written twice. -/
def singleQuoted : List Char → Option (List Char × List Char)
  | [] => none
  | '\'' :: '\'' :: cs => (singleQuoted cs).map fun (inside, rest) => ('\'' :: inside, rest)
  | '\'' :: cs => some ([], cs)
  | c :: cs => (singleQuoted cs).map fun (inside, rest) => (c :: inside, rest)

/-- What stands before the closing double quote, with its escapes. -/
def doubleQuoted : List Char → Option (List Char × List Char)
  | [] => none
  | '\\' :: c :: cs => (doubleQuoted cs).map fun (inside, rest) => ('\\' :: c :: inside, rest)
  | '"' :: cs => some ([], cs)
  | c :: cs => (doubleQuoted cs).map fun (inside, rest) => (c :: inside, rest)

/-- The value of a hexadecimal digit. -/
def hexDigit? (c : Char) : Option Nat :=
  if '0' ≤ c && c ≤ '9' then some (c.toNat - 48)
  else if 'a' ≤ c && c ≤ 'f' then some (c.toNat - 87)
  else if 'A' ≤ c && c ≤ 'F' then some (c.toNat - 55)
  else none

/-- The character with the given hexadecimal digits. -/
def hexChar? (digits : List Char) : Option Char := do
  let n ← digits.foldlM (fun n c => (hexDigit? c).map (16 * n + ·)) 0
  if n.isValidChar then some (Char.ofNat n) else none

/-- The character of an escape of one letter. -/
def escaped? : Char → Option Char
  | '0' => some (Char.ofNat 0)
  | 'a' => some (Char.ofNat 7)
  | 'b' => some (Char.ofNat 8)
  | 't' => some '\t'
  | '\t' => some '\t'
  | 'n' => some '\n'
  | 'v' => some (Char.ofNat 11)
  | 'f' => some (Char.ofNat 12)
  | 'r' => some '\r'
  | 'e' => some (Char.ofNat 27)
  | ' ' => some ' '
  | '"' => some '"'
  | '/' => some '/'
  | '\\' => some '\\'
  | 'N' => some (Char.ofNat 0x85)
  | '_' => some (Char.ofNat 0xA0)
  | 'L' => some (Char.ofNat 0x2028)
  | 'P' => some (Char.ofNat 0x2029)
  | _ => none

/-- How many digits the escape of a code point has. -/
def hexLength? : Char → Option Nat
  | 'x' => some 2
  | 'u' => some 4
  | 'U' => some 8
  | _ => none

/-- Resolves the escapes of a text in double quotes. -/
def unescape : Nat → List Char → Option (List Char)
  | _, [] => some []
  | 0, _ => none
  | steps + 1, '\\' :: c :: cs =>
    match hexLength? c with
    | some n => do
      if cs.length < n then none
      let char ← hexChar? (cs.take n)
      (unescape steps (cs.drop n)).map (char :: ·)
    | none => do
      let char ← escaped? c
      (unescape steps cs).map (char :: ·)
  | steps + 1, c :: cs => (unescape steps cs).map (c :: ·)

/-- The scalar in quotes at the start of a text, if there is one. -/
def quotedScalar? : List Char → Option (Scalar × List Char)
  | '"' :: cs => do
    let (inside, rest) ← doubleQuoted cs
    let chars ← unescape (inside.length + 1) (foldQuoted inside.length inside)
    return (.ofChars false chars, rest)
  | '\'' :: cs => do
    let (inside, rest) ← singleQuoted cs
    return (.ofChars false (foldQuoted inside.length inside), rest)
  | _ => none

/-- Whether a scalar in quotes starts here. -/
def atQuote (cs : List Char) : Bool :=
  cs.head? == some '"' || cs.head? == some '\''

end TexTidy.Yaml
