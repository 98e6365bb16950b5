import TexTidy.Text.Utf8

/-!
# TexTidy.Toml

TOML values and the tables they are kept in. A table under construction knows, of each key, whether
its value is complete: a table that only came up on the way to another one can still be defined, and
nothing can be defined twice.
-/

namespace TexTidy.Toml

/-- A TOML value. Of numbers with a fraction and of dates only the kind is kept. -/
inductive Value where
  | string (s : Bytes)
  | integer (n : Int)
  | float
  | boolean (b : Bool)
  | datetime
  | array (items : List Value)
  | table (entries : List (Bytes × Value))
  /-- Tables that were written one by one under a header in double brackets. -/
  | tables (items : List (List (Bytes × Value)))
  deriving Repr

instance : Inhabited Value := ⟨.float⟩

/-- A table. -/
abbrev Table := List (Bytes × Value)

/-- The name of a value's kind in messages. -/
def Value.kindName : Value → Bytes
  | .string _ => bytes "string"
  | .integer _ => bytes "int64"
  | .float => bytes "float64"
  | .boolean _ => bytes "bool"
  | .datetime => bytes "time.Time"
  | .array _ => bytes "[]interface \x7b\x7d"
  | .table _ => bytes "map[string]interface \x7b\x7d"
  | .tables _ => bytes "[]map[string]interface \x7b\x7d"

/-- The value of a key. -/
def Table.get? (t : Table) (key : Bytes) : Option Value :=
  List.lookup key t

/-- Replaces the value of a key, or adds it at the end. -/
def Table.set (t : Table) (key : Bytes) (v : Value) : Table :=
  if (t.get? key).isSome then t.map fun e => if e.1 = key then (key, v) else e
  else t ++ [(key, v)]

/-- Changes the table at a path. Tables on the way are made if they are not there; of tables that were
    written one by one the last is meant. Nothing else may stand on the way. -/
def Table.update? (f : Table → Option Table) : List Bytes → Table → Option Table
  | [], t => f t
  | key :: path, t =>
    match t.get? key with
    | none => (update? f path []).map fun inner => t.set key (.table inner)
    | some (.table inner) => (update? f path inner).map fun inner => t.set key (.table inner)
    | some (.tables items) =>
      match items.getLast? with
      | none => none
      | some last =>
        (update? f path last).map fun last => t.set key (.tables (items.dropLast ++ [last]))
    | some _ => none

/-- A document under construction. -/
structure Document where
  root : Table := []
  /-- The paths of the tables that are defined and can not be defined again. -/
  defined : List (List Bytes) := []
  /-- The path of the table that keys go to. -/
  current : List Bytes := []

namespace Document

/-- Opens the table at a path under a header. -/
def openTable? (d : Document) (path : List Bytes) : Option Document := do
  if d.defined.contains path then none
  let root ← d.root.update? some path
  return { root, defined := path :: d.defined, current := path }

/-- Opens one more table at a path under a header in double brackets. -/
def appendTable? (d : Document) (path : List Bytes) : Option Document := do
  let key ← path.getLast?
  let root ← d.root.update? (fun t => match t.get? key with
    | none => some (t.set key (.tables [[]]))
    | some (.tables items) => some (t.set key (.tables (items ++ [[]])))
    | some _ => none) path.dropLast
  let below := d.defined.filter fun p => !(path.isPrefixOf p)
  return { root, defined := below, current := path }

/-- Gives a key of the current table a value. A table given as a value is complete. -/
def assign? (d : Document) (key : List Bytes) (v : Value) : Option Document := do
  let last ← key.getLast?
  let full := d.current ++ key
  let root ← d.root.update? (fun t => match t.get? last with
    | none => some (t.set last v)
    | some _ => none) (d.current ++ key.dropLast)
  return { d with root, defined := full :: d.defined }

end Document

/-! ## Characters -/

/-- A blank inside a line. -/
def isGap (c : Char) : Bool :=
  c == ' ' || c == '\t'

/-- A character of a key without quotes. -/
def isBareKey (c : Char) : Bool :=
  c.isAlphanum || c == '-' || c == '_'

/-- Skips blanks. -/
def skipGap (cs : List Char) : List Char :=
  cs.dropWhile isGap

/-- What is left of a line that holds nothing more than blanks or a comment: the lines after it. -/
def endLine? (cs : List Char) : Option (List Char) :=
  match skipGap cs with
  | [] => some []
  | '\n' :: rest => some rest
  | '#' :: rest => some ((rest.dropWhile (· != '\n')).drop 1)
  | _ => none

/-- Skips blanks, line breaks and comments. -/
def skipLines : Nat → List Char → List Char
  | 0, cs => cs
  | steps + 1, cs =>
    match endLine? cs with
    | some [] => []
    | some rest => skipLines steps rest
    | none => skipGap cs

/-- Skips all that means nothing inside an array. -/
def skipAll (cs : List Char) : List Char :=
  skipLines (cs.length + 1) cs

/-! ## Strings -/

/-- The value of a hexadecimal digit. -/
def hexDigit? (c : Char) : Option Nat :=
  if '0' ≤ c && c ≤ '9' then some (c.toNat - 48)
  else if 'a' ≤ c && c ≤ 'f' then some (c.toNat - 87)
  else if 'A' ≤ c && c ≤ 'F' then some (c.toNat - 55)
  else none

/-- The value of digits in a base. -/
def digits? (base : Nat) (cs : List Char) : Option Nat :=
  if cs.isEmpty then none
  else cs.foldlM (fun n c => (hexDigit? c).bind fun d => if d < base then some (base * n + d) else none) 0

/-- The character with the given hexadecimal digits. -/
def hexChar? (cs : List Char) : Option Char := do
  let n ← digits? 16 cs
  if n.isValidChar then some (Char.ofNat n) else none

/-- The character of an escape of one letter. -/
def escaped? : Char → Option Char
  | 'b' => some (Char.ofNat 8)
  | 't' => some '\t'
  | 'n' => some '\n'
  | 'f' => some (Char.ofNat 12)
  | 'r' => some '\r'
  | '"' => some '"'
  | '\\' => some '\\'
  | _ => none

/-- How many digits the escape of a code point has. -/
def hexLength? : Char → Option Nat
  | 'u' => some 4
  | 'U' => some 8
  | _ => none

/-- The blanks and line breaks that a backslash at the end of a line joins over. -/
def joinLines? (cs : List Char) : Option (List Char) :=
  match skipGap cs with
  | '\n' :: rest => some (rest.dropWhile fun c => isGap c || c == '\n')
  | _ => none

/-- The end of a long string, if one is here: three quotes, with up to two more in front of them that
    belong to the string. -/
def closeLong? (q : Char) (cs : List Char) : Option (List Char × List Char) :=
  let run := (cs.takeWhile (· == q)).length
  if run < 3 then none
  else
    let inside := min (run - 3) 2
    some (List.replicate inside q, cs.drop (inside + 3))

/-- What stands before the closing quotes of a string with escapes. With `long`, three quotes close it
    and it may hold line breaks. -/
def basicString? (long : Bool) : Nat → List Char → Option (List Char × List Char)
  | 0, _ => none
  | _ + 1, [] => none
  | steps + 1, c :: cs =>
    if c == '"' then
      if !long then some ([], cs)
      else match closeLong? '"' (c :: cs) with
        | some closed => some closed
        | none => (basicString? long steps cs).map fun (s, rest) => (c :: s, rest)
    else if c == '\\' then
      match cs with
      | [] => none
      | e :: rest =>
        match hexLength? e with
        | some n => do
          if rest.length < n then none
          let char ← hexChar? (rest.take n)
          (basicString? long steps (rest.drop n)).map fun (s, rest) => (char :: s, rest)
        | none =>
          match escaped? e with
          | some char => (basicString? long steps rest).map fun (s, rest) => (char :: s, rest)
          | none => if long then (joinLines? cs).bind (basicString? long steps) else none
    else if c == '\n' && !long then none
    else (basicString? long steps cs).map fun (s, rest) => (c :: s, rest)

/-- What stands before the closing quotes of a string without escapes. -/
def literalString? (long : Bool) : List Char → Option (List Char × List Char)
  | [] => none
  | '\'' :: cs =>
    if !long then some ([], cs)
    else match closeLong? '\'' ('\'' :: cs) with
      | some closed => some closed
      | none => (literalString? long cs).map fun (s, rest) => ('\'' :: s, rest)
  | c :: cs =>
    if c == '\n' && !long then none
    else (literalString? long cs).map fun (s, rest) => (c :: s, rest)

/-- A line break right after the opening quotes of a long string does not count. -/
def skipFirstBreak : List Char → List Char
  | '\n' :: cs => cs
  | cs => cs

/-- Reads a string with any kind of quotes. -/
def string? : List Char → Option (List Char × List Char)
  | '"' :: '"' :: '"' :: cs => basicString? true (cs.length + 1) (skipFirstBreak cs)
  | '"' :: cs => basicString? false (cs.length + 1) cs
  | '\'' :: '\'' :: '\'' :: cs => literalString? true (skipFirstBreak cs)
  | '\'' :: cs => literalString? false cs
  | _ => none

/-! ## Keys -/

/-- Reads a key without dots. -/
def simpleKey? (cs : List Char) : Option (Bytes × List Char) :=
  let encode (s : List Char) := bytes (String.ofList s)
  match cs with
  | '"' :: rest => (basicString? false (rest.length + 1) rest).map fun (s, rest) => (encode s, rest)
  | '\'' :: rest => (literalString? false rest).map fun (s, rest) => (encode s, rest)
  | _ =>
    let name := cs.takeWhile isBareKey
    if name.isEmpty then none else some (encode name, cs.dropWhile isBareKey)

/-- Reads a key, which may consist of several names with dots between them. -/
def key? : Nat → List Char → Option (List Bytes × List Char)
  | 0, _ => none
  | steps + 1, cs => do
    let (name, rest) ← simpleKey? (skipGap cs)
    match skipGap rest with
    | '.' :: rest =>
      let (names, rest) ← key? steps rest
      return (name :: names, rest)
    | rest => return ([name], rest)

/-! ## Numbers, dates and truth values -/

/-- Removes the underscores between digits; none if one stands anywhere else. -/
def dropUnderscores? : Bool → List Char → Option (List Char)
  | _, [] => some []
  | afterDigit, '_' :: c :: cs =>
    if afterDigit && (hexDigit? c).isSome then
      (dropUnderscores? true cs).map (c :: ·)
    else none
  | _, c :: cs => if c == '_' then none else (dropUnderscores? (hexDigit? c).isSome cs).map (c :: ·)

/-- The number of decimal digits without leading zeros. -/
def decimal? (cs : List Char) : Option Nat :=
  if cs.length > 1 && cs.head? == some '0' then none else digits? 10 cs

/-- An integer that fits into 64 bits. -/
def integer? (cs : List Char) : Option Int := do
  let inRange (n : Int) : Option Int := if -Int.pow 2 63 ≤ n && n < Int.pow 2 63 then some n else none
  match ← dropUnderscores? false cs with
  | '0' :: 'x' :: ds => (digits? 16 ds).bind fun n => inRange n
  | '0' :: 'o' :: ds => (digits? 8 ds).bind fun n => inRange n
  | '0' :: 'b' :: ds => (digits? 2 ds).bind fun n => inRange n
  | '+' :: ds => (decimal? ds).bind fun n => inRange n
  | '-' :: ds => (decimal? ds).bind fun n => inRange (-n)
  | ds => (decimal? ds).bind fun n => inRange n

/-- A number without its sign. -/
def unsigned : List Char → List Char
  | '+' :: cs => cs
  | '-' :: cs => cs
  | cs => cs

/-- Whether characters are decimal digits. -/
def allDigits (cs : List Char) : Bool :=
  !cs.isEmpty && cs.all Char.isDigit

/-- Whether a text is a number with a fraction or an exponent. -/
def isFloat (cs : List Char) : Bool :=
  match (dropUnderscores? false cs).map unsigned with
  | none => false
  | some cs =>
    if cs == ['i', 'n', 'f'] || cs == ['n', 'a', 'n'] then true
    else
      let whole := cs.takeWhile Char.isDigit
      let rest := cs.dropWhile Char.isDigit
      let fraction := match rest with
        | '.' :: rest => some (rest.takeWhile Char.isDigit, rest.dropWhile Char.isDigit)
        | _ => none
      let tail := (fraction.map (·.2)).getD rest
      let exponentOk := match tail with
        | [] => fraction.isSome
        | e :: rest => (e == 'e' || e == 'E') && allDigits (unsigned rest)
      (decimal? whole).isSome && (fraction.map fun f => allDigits f.1).getD true && exponentOk

/-- Whether a text has the shape of a date or of a time of day. -/
def isDatetime (cs : List Char) : Bool :=
  let shape := cs.map fun c => if c.isDigit then '0' else c
  let date := ['0', '0', '0', '0', '-', '0', '0', '-', '0', '0']
  let time := ['0', '0', ':', '0', '0', ':', '0', '0']
  let zone (zs : List Char) : Bool :=
    zs == [] || zs == ['Z'] || zs == ['z'] || zs == ['+', '0', '0', ':', '0', '0'] ||
      zs == ['-', '0', '0', ':', '0', '0']
  let afterTime (zs : List Char) : Bool := match zs with
    | '.' :: rest => rest.head? == some '0' && zone (rest.dropWhile (· == '0'))
    | rest => zone rest
  let isTime (zs : List Char) : Bool := time.isPrefixOf zs && afterTime (zs.drop 8)
  isTime shape || shape == date ||
    (date.isPrefixOf shape &&
      ((shape.drop 10).head? == some 'T' || (shape.drop 10).head? == some 't' ||
        (shape.drop 10).head? == some ' ') && isTime (shape.drop 11))

/-- The value of a word that is no string, array or table. -/
def word? (cs : List Char) : Option Value :=
  if cs == ['t', 'r', 'u', 'e'] then some (.boolean true)
  else if cs == ['f', 'a', 'l', 's', 'e'] then some (.boolean false)
  else match integer? cs with
    | some n => some (.integer n)
    | none => if isFloat cs then some .float else if isDatetime cs then some .datetime else none

/-- A character of a number, a date or a truth value. -/
def isWordChar (c : Char) : Bool :=
  c.isAlphanum || c == '+' || c == '-' || c == '.' || c == '_' || c == ':'

/-- Reads a word. A date can be followed by a time of day after a space. -/
def readWord? (cs : List Char) : Option (Value × List Char) :=
  let first := cs.takeWhile isWordChar
  let rest := cs.dropWhile isWordChar
  match rest with
  | ' ' :: more =>
    let both := first ++ ' ' :: more.takeWhile isWordChar
    if isDatetime both then some (.datetime, more.dropWhile isWordChar)
    else (word? first).map fun v => (v, rest)
  | _ => (word? first).map fun v => (v, rest)

/-! ## Values -/

mutual

/-- Reads a value. -/
def value? : Nat → List Char → Option (Value × List Char)
  | 0, _ => none
  | steps + 1, cs =>
    match cs with
    | '[' :: rest => (items? steps (skipAll rest)).map fun (vs, rest) => (.array vs, rest)
    | '\x7b' :: rest =>
      match skipGap rest with
      | '\x7d' :: rest => some (.table [], rest)
      | rest => (entries? steps {} rest).map fun (t, rest) => (.table t, rest)
    | '"' :: _ | '\'' :: _ =>
      (string? cs).map fun (s, rest) => (.string (bytes (String.ofList s)), rest)
    | _ => readWord? cs

/-- Reads the items of an array up to its closing bracket. -/
def items? : Nat → List Char → Option (List Value × List Char)
  | 0, _ => none
  | _ + 1, ']' :: rest => some ([], rest)
  | steps + 1, cs => do
    let (v, rest) ← value? steps cs
    match skipAll rest with
    | ']' :: rest => return ([v], rest)
    | ',' :: rest =>
      let (vs, rest) ← items? steps (skipAll rest)
      return (v :: vs, rest)
    | _ => none

/-- Reads the entries of a table in braces up to its closing brace. -/
def entries? : Nat → Document → List Char → Option (Table × List Char)
  | 0, _, _ => none
  | steps + 1, d, cs => do
    let (key, rest) ← key? (cs.length + 1) cs
    match rest with
    | '=' :: rest =>
      let (v, rest) ← value? steps (skipGap rest)
      let d ← d.assign? key v
      match skipGap rest with
      | '\x7d' :: rest => return (d.root, rest)
      | ',' :: rest => entries? steps d rest
      | _ => none
    | _ => none

end

/-! ## Documents -/

/-- Reads a header and opens its table. -/
def header? (d : Document) : List Char → Option (Document × List Char)
  | '[' :: '[' :: cs => do
    let (path, rest) ← key? (cs.length + 1) cs
    match rest with
    | ']' :: ']' :: rest => return (← d.appendTable? path, rest)
    | _ => none
  | '[' :: cs => do
    let (path, rest) ← key? (cs.length + 1) cs
    match rest with
    | ']' :: rest => return (← d.openTable? path, rest)
    | _ => none
  | _ => none

/-- Reads a key with its value. -/
def assignment? (d : Document) (cs : List Char) : Option (Document × List Char) := do
  let (key, rest) ← key? (cs.length + 1) cs
  match rest with
  | '=' :: rest =>
    let rest := skipGap rest
    let (v, rest) ← value? (2 * rest.length + 2) rest
    return (← d.assign? key v, rest)
  | _ => none

/-- Reads headers and assignments, one to a line, to the end of the text. -/
def document? : Nat → Document → List Char → Option Document
  | 0, _, _ => none
  | steps + 1, d, cs =>
    match skipAll cs with
    | [] => some d
    | '[' :: rest => do
      let (d, rest) ← header? d ('[' :: rest)
      document? steps d (← endLine? rest)
    | cs => do
      let (d, rest) ← assignment? d cs
      document? steps d (← endLine? rest)

/-- Whether TOML allows a character anywhere. -/
def isAllowed (c : Char) : Bool :=
  c == '\n' || c == '\t' || (0x20 ≤ c.toNat && c.toNat != 0x7F)

/-- A text with newlines as its only line breaks. A carriage return without a newline stays. -/
def normalizeBreaks : List Char → List Char
  | [] => []
  | '\r' :: '\n' :: cs => '\n' :: normalizeBreaks cs
  | c :: cs => c :: normalizeBreaks cs

/-- The table of a text, if the text is well-formed. -/
def parse? (src : Bytes) : Option Table := do
  let src := Utf8.dropMark src
  if !Utf8.isValid src then none
  let cs := normalizeBreaks (Utf8.decode src)
  if !cs.all isAllowed then none
  let d ← document? (cs.length + 1) {} cs
  return d.root

end TexTidy.Toml
