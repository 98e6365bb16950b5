import TexTidy.Source.Cursor
import TexTidy.Source.Fault

/-!
# TexTidy.Source.Token

The lexical units of a document. A token keeps everything it was read from: `Kind.raw` gives back the
exact bytes, so the tokens of a source laid side by side are the source, and reading a token moves the
cursor over exactly the bytes the token stands for.

Tokens know nothing of modes or signatures. Environment names, verbatim bodies and the delimited text
of `\verb` are no tokens; they are read on demand by the functions at the end of the module.
-/

namespace TexTidy

/-- A line comment. -/
structure Comment where
  /-- Blanks between the text before it and the percent sign. -/
  leading : Bytes := []
  /-- What stands after the percent sign on its line. -/
  content : Bytes := []
  /-- The line break and the indentation of the next line, unless that line is blank. -/
  suffix : Bytes := []
  /-- Something other than white space stands before it on its line. -/
  sameLine : Bool := false
  deriving DecidableEq, Repr

/-- A comment as it was written. -/
def Comment.raw (c : Comment) : Bytes :=
  c.leading ++ (Byte.percent :: c.content) ++ c.suffix

namespace Token

/-- What a token is. -/
inductive Kind where
  | endOfInput
  | text (content : Bytes)
  | space (raw : Bytes)
  | parbreak (raw : Bytes)
  | comment (comment : Comment)
  | command (name : Bytes)
  | symbol (char : UInt8)
  | openBrace
  | closeBrace
  | openBracket
  | closeBracket
  | dollar
  | dollars
  deriving DecidableEq, Repr

/-- The bytes a token was read from. -/
def Kind.raw : Kind → Bytes
  | .endOfInput => []
  | .text content => content
  | .space raw => raw
  | .parbreak raw => raw
  | .comment c => c.raw
  | .command name => Byte.backslash :: name
  | .symbol c => [c]
  | .openBrace => [Byte.openBrace]
  | .closeBrace => [Byte.closeBrace]
  | .openBracket => [Byte.openBracket]
  | .closeBracket => [Byte.closeBracket]
  | .dollar => [Byte.dollar]
  | .dollars => [Byte.dollar, Byte.dollar]

end Token

/-- A token and where it stands. -/
structure Token where
  kind : Token.Kind
  span : Span
  deriving DecidableEq, Repr

namespace Token

/-! ## Reading one kind of token -/

/-- The line break at the start of a text: a newline, with a carriage return before it or not. -/
def lineBreak (s : Bytes) : Bytes :=
  if [Byte.carriageReturn, Byte.newline].isPrefixOf s then [Byte.carriageReturn, Byte.newline]
  else if [Byte.newline].isPrefixOf s then [Byte.newline]
  else []

/-- What a comment takes from behind its own line: the line break and the indentation of the next
    line. It takes nothing if the next line is blank, so that a paragraph break after it survives. -/
def commentSuffix (tail : Bytes) : Bytes :=
  match lineBreak tail with
  | [] => []
  | br =>
    let next := tail.drop br.length
    match next.dropWhile isPad with
    | [] => []
    | b :: _ =>
      if b == Byte.newline || b == Byte.carriageReturn then [] else br ++ next.takeWhile isPad

/-- The comment whose percent sign stands right before `after`. A carriage return at the end of the
    line belongs to the line break. -/
def scanComment (inked : Bool) (leading after : Bytes) : Comment :=
  let line := after.takeWhile (· != Byte.newline)
  let content := if line.getLast? == some Byte.carriageReturn then line.dropLast else line
  { leading, content, suffix := commentSuffix (after.drop content.length), sameLine := inked }

/-- The token at a run of white space. Two newlines make a paragraph break, and blanks in front of a
    comment belong to the comment. -/
def scanBlank (inked : Bool) (s : Bytes) : Kind :=
  let run := s.takeWhile isBlank
  let rest := s.dropWhile isBlank
  let newlines := run.count Byte.newline
  if newlines = 0 ∧ rest.head? = some Byte.percent then .comment (scanComment inked run rest.tail)
  else if 2 ≤ newlines then .parbreak run
  else .space run

/-- The name of the command whose backslash stands right before `s`: the letters that follow, or one
    character that is no letter. -/
def commandName (s : Bytes) : Bytes :=
  match s with
  | c :: _ => if isLetter c then s.takeWhile isLetter else s.take (Utf8.first s).2
  | [] => []

/-- The token of a byte that is one whatever comes after it. -/
def single? (c : UInt8) : Option Kind :=
  if c = Byte.openBrace then some .openBrace
  else if c = Byte.closeBrace then some .closeBrace
  else if c = Byte.openBracket then some .openBracket
  else if c = Byte.closeBracket then some .closeBracket
  else if c = Byte.ampersand ∨ c = Byte.hash ∨ c = Byte.caret ∨ c = Byte.underscore ∨ c = Byte.tilde
    then some (.symbol c)
  else none

/-- The token at a dollar sign. Two of them in a row are one token. -/
def scanDollar (s : Bytes) : Kind :=
  if s.head? = some Byte.dollar then .dollars else .dollar

/-- The kind of the next token, given whether the line has ink on it; none if a backslash is the last
    byte of the source. -/
def scan? (inked : Bool) : Bytes → Option Kind
  | [] => some .endOfInput
  | c :: s =>
    match single? c with
    | some k => some k
    | none =>
      if c = Byte.percent then some (.comment (scanComment inked [] s))
      else if c = Byte.dollar then some (scanDollar s)
      else if c = Byte.backslash then
        if s.isEmpty then none else some (.command (commandName s))
      else if isBlank c then some (scanBlank inked (c :: s))
      else some (.text ((c :: s).takeWhile fun b => !isActive b && !isBlank b))

/-! ## What a token stands for -/

/-- A line break is what the text starts with. -/
theorem lineBreak_isPrefix (s : Bytes) : lineBreak s <+: s := by
  unfold lineBreak
  split
  · next h => exact List.isPrefixOf_iff_prefix.1 h
  · split
    · next h => exact List.isPrefixOf_iff_prefix.1 h
    · exact List.nil_prefix

/-- What a comment takes from behind its line is what stands there. -/
theorem commentSuffix_isPrefix (s : Bytes) : commentSuffix s <+: s := by
  have hbr : lineBreak s <+: s := lineBreak_isPrefix s
  unfold commentSuffix
  generalize lineBreak s = br at hbr
  obtain ⟨rest, rfl⟩ := hbr
  split
  · exact List.nil_prefix
  · simp only [List.drop_left]
    split
    · exact List.nil_prefix
    · split
      · exact List.nil_prefix
      · exact (List.prefix_append_right_inj _).2 (List.takeWhile_prefix _)

/-- A comment is read from its blanks, its percent sign and what comes after that. -/
theorem raw_scanComment_isPrefix (inked : Bool) (leading after : Bytes) :
    (scanComment inked leading after).raw <+: leading ++ Byte.percent :: after := by
  have hline : (after.takeWhile (· != Byte.newline)) <+: after := List.takeWhile_prefix _
  generalize hc : (if (after.takeWhile (· != Byte.newline)).getLast? == some Byte.carriageReturn
    then (after.takeWhile (· != Byte.newline)).dropLast
    else after.takeWhile (· != Byte.newline)) = content
  have hcontent : content <+: after := by
    rw [← hc]
    split
    · exact (List.dropLast_prefix _).trans hline
    · exact hline
  obtain ⟨rest, hrest⟩ := hcontent
  have hdrop : after.drop content.length = rest := by rw [← hrest]; simp
  simp only [scanComment, Comment.raw, hc, hdrop, List.append_assoc, List.cons_append]
  conv => rhs; rw [← hrest]
  simpa [List.prefix_append_right_inj] using commentSuffix_isPrefix rest

/-- White space and a comment behind it are read from the text. -/
theorem raw_scanBlank_isPrefix (inked : Bool) (s : Bytes) : (scanBlank inked s).raw <+: s := by
  have hrun : s.takeWhile isBlank <+: s := List.takeWhile_prefix _
  have hsplit : s.takeWhile isBlank ++ s.dropWhile isBlank = s := List.takeWhile_append_dropWhile
  unfold scanBlank
  dsimp only
  split
  · next h =>
    obtain ⟨rest, hrest⟩ : ∃ rest, s.dropWhile isBlank = Byte.percent :: rest := by
      revert h
      cases s.dropWhile isBlank <;> simp
    have hcomment := raw_scanComment_isPrefix inked (s.takeWhile isBlank) rest
    rw [← hrest, hsplit] at hcomment
    simpa [Kind.raw, hrest] using hcomment
  · split <;> exact hrun

/-- The name of a command is what its text starts with. -/
theorem commandName_isPrefix (s : Bytes) : commandName s <+: s := by
  unfold commandName
  split
  · split
    · exact List.takeWhile_prefix _
    · exact List.take_prefix _ _
  · exact List.nil_prefix

/-- A token of one byte stands for that byte. -/
theorem raw_single? {c : UInt8} {k : Kind} (h : single? c = some k) : k.raw = [c] := by
  unfold single? at h
  repeat' split at h
  all_goals cases h
  all_goals first | rfl | (next hc => rw [hc]; rfl)

/-- Dollar signs are read from the text. -/
theorem raw_scanDollar_isPrefix (s : Bytes) : (scanDollar s).raw <+: Byte.dollar :: s := by
  unfold scanDollar
  split
  · next hs =>
    obtain ⟨rest, rfl⟩ := List.head?_eq_some_iff.1 hs
    exact ⟨rest, rfl⟩
  · exact ⟨s, rfl⟩

/-- **A token stands for the bytes it was read from.** -/
theorem raw_scan?_isPrefix {inked : Bool} {s : Bytes} {k : Kind} (h : scan? inked s = some k) :
    k.raw <+: s := by
  cases s with
  | nil => cases h; exact List.nil_prefix
  | cons c s =>
    rw [scan?] at h
    split at h
    · next hk =>
      cases h
      rw [raw_single? hk]
      exact ⟨s, rfl⟩
    split at h
    · next hc =>
      cases h; cases hc
      exact raw_scanComment_isPrefix inked [] s
    split at h
    · next hc =>
      cases h; cases hc
      exact raw_scanDollar_isPrefix s
    split at h
    · next hc =>
      cases hc
      split at h
      · cases h
      · cases h
        exact (List.prefix_cons_inj _).2 (commandName_isPrefix s)
    split at h
    · cases h; exact raw_scanBlank_isPrefix inked (c :: s)
    · cases h; exact List.takeWhile_prefix _

end Token

namespace Cursor

/-! ## Tokens and other units at a cursor -/

/-- Reads the next token. -/
def token (c : Cursor) : Except Fault (Token × Cursor) :=
  match Token.scan? c.inked c.rest with
  | some kind =>
    let size := kind.raw.length
    .ok (⟨kind, ⟨c.pos, c.pos + size⟩⟩, c.advance size)
  | none => .error ⟨c.pos, .trailingEscape, c.pos + 1⟩

/-- A byte that no environment name holds. -/
def isNameBreaker (b : UInt8) : Bool :=
  isBlank b || b == Byte.openBrace || b == Byte.backslash || b == Byte.percent

/-- Reads the braced name of an environment. -/
def environmentName (c : Cursor) : Except Fault (Bytes × Cursor) :=
  if c.peek? ≠ some Byte.openBrace then .error ⟨c.pos, .nameExpected, c.pos⟩
  else match Bytes.cut [Byte.closeBrace] c.rest.tail with
    | none => .error ⟨c.pos, .nameUnclosed, c.pos⟩
    | some (name, _) =>
      if name.isEmpty || name.any isNameBreaker then
        .error ⟨c.pos, .nameInvalid name, c.pos⟩
      else .ok (name, c.advance (name.length + 2))

/-- What opens an environment. -/
def beginMarker (name : Bytes) : Bytes :=
  bytes "\\begin\x7b" ++ name ++ [Byte.closeBrace]

/-- What closes an environment. -/
def endMarker (name : Bytes) : Bytes :=
  bytes "\\end\x7b" ++ name ++ [Byte.closeBrace]

/-- The text before the first marker that no backslash stands in front of. A backslash before the text
    itself does not count unless `escaped` says so. -/
def bodyBefore? (marker : Bytes) (escaped : Bool) : Bytes → Option Bytes
  | [] => none
  | b :: s =>
    if !escaped && marker.isPrefixOf (b :: s) then some []
    else (bodyBefore? marker (b == Byte.backslash) s).map (b :: ·)

/-- Reads a verbatim body together with the marker that closes the environment. -/
def verbatimBody (name : Bytes) (c : Cursor) : Option (Bytes × Cursor) :=
  (bodyBefore? (endMarker name) false c.rest).map fun body =>
    (body, c.advance (body.length + (endMarker name).length))

/-- Whether a character can not delimit the text of `\verb`. -/
def isDelimiterForbidden (d : Char) : Bool :=
  d == '*' || (d.toNat < 0x80 && (isBlank (UInt8.ofNat d.toNat) || isLetter (UInt8.ofNat d.toNat)))

/-- Reads the text of `\verb` between two equal delimiters on one line: the delimiter and the text. -/
def delimited (c : Cursor) : Except Fault ((Bytes × Bytes) × Cursor) :=
  if c.rest.isEmpty then .error ⟨c.pos, .delimiterExpected, c.pos⟩
  else
    let (d, size) := Utf8.first c.rest
    if isDelimiterForbidden d then .error ⟨c.pos, .delimiterInvalid d, c.pos⟩
    else
      let marker := c.rest.take size
      match Bytes.cut marker (c.rest.drop size) with
      | some (content, _) =>
        if content.hasNewline then .error ⟨c.pos, .verbUnclosed, c.pos⟩
        else .ok ((marker, content), c.advance (size + content.length + size))
      | none => .error ⟨c.pos, .verbUnclosed, c.pos⟩

/-- Skips white space, but stays in front of a paragraph break. -/
def skipSpace (c : Cursor) : Bytes × Cursor :=
  let run := c.rest.takeWhile isBlank
  if 2 ≤ run.count Byte.newline then ([], c) else (run, c.advance run.length)

/-- Reads one character. -/
def character (c : Cursor) : Bytes × Cursor :=
  let size := (Utf8.first c.rest).2
  (c.rest.take size, c.advance size)

/-- All tokens from a cursor on, the end of input included, and the fault that cut them short, if any.
    The bound is one more than the number of bytes left, as every other token takes at least one. -/
def tokensFrom : Nat → Cursor → List Token × Option Fault
  | 0, _ => ([], none)
  | n + 1, c =>
    match c.token with
    | .error f => ([], some f)
    | .ok (t, next) =>
      if t.kind = .endOfInput then ([t], none)
      else
        let (ts, f) := tokensFrom n next
        (t :: ts, f)

end Cursor

/-- The tokens of a source, the end of input included, and the fault that cut them short, if any. -/
def Token.all (src : Bytes) : List Token × Option Fault :=
  Cursor.tokensFrom (src.length + 1) (.ofOffset src 0)

end TexTidy
