import TexTidy.Proofs.Forward

/-!
# TexTidy.Proofs.Derivation

What the parser can read, as a relation. `Derives r j` has one rule for every way in which a sequence, a
node or the arguments of a signature can be read, with everything that is checked on that way among its
premises. The number of steps that `content` may spend is gone, and so are the faults.

`derives_of_content` shows that every successful run of the parser is a derivation. A fact about parsed
trees is then one induction over derivations, with a case for each rule, and the parser itself is not
unfolded again.
-/

namespace TexTidy.Parse

/-! ## the rules -/

/-- The leaf that a token is by itself. -/
def plainLeaf? (mode : Mode) : Token.Kind → Option Leaf
  | .text content => some (.text content)
  | .openBracket => some (.text [Byte.openBracket])
  | .closeBracket => some (.text [Byte.closeBracket])
  | .space raw => some (.space raw)
  | .parbreak raw => some (.parbreak raw)
  | .comment c => some (.comment c false)
  | .symbol char =>
    if mode = .math ∧ (char = Byte.caret ∨ char = Byte.underscore) then none
    else some (.text [char])
  | _ => none

/-- A leaf of one token is text, white space or a comment. -/
theorem plainLeaf?_cases {mode : Mode} {k : Token.Kind} {l : Leaf} (h : plainLeaf? mode k = some l) :
    l = .text k.raw ∨ (∃ raw, k = .space raw ∧ l = .space raw) ∨
      (∃ raw, k = .parbreak raw ∧ l = .parbreak raw) ∨ ∃ c, k = .comment c ∧ l = .comment c false := by
  cases k with
  | text | openBracket | closeBracket =>
    cases h
    exact .inl rfl
  | symbol char =>
    rw [plainLeaf?] at h
    split at h
    · cases h
    · cases h
      exact .inl rfl
  | space raw =>
    cases h
    exact .inr (.inl ⟨raw, rfl, rfl⟩)
  | parbreak raw =>
    cases h
    exact .inr (.inr (.inl ⟨raw, rfl, rfl⟩))
  | comment c =>
    cases h
    exact .inr (.inr (.inr ⟨c, rfl, rfl⟩))
  | _ => cases h

/-- What a token that opens a formula waits for, and the shape of that formula. -/
def formula? : Token.Kind → Option (Closer × Shape)
  | .dollars => some (.dollars, .displayMath (bytes "$$") (bytes "$$"))
  | .command name =>
    if name = bytes "(" then some (.command (bytes ")"), .inlineMath (bytes "\\(") (bytes "\\)"))
    else if name = bytes "[" then
      some (.command (bytes "]"), .displayMath (bytes "\\[") (bytes "\\]"))
    else none
  | _ => none

/-- All formulas with an opening of their own. -/
theorem formula?_cases {k : Token.Kind} {closer : Closer} {shape : Shape}
    (h : formula? k = some (closer, shape)) :
    k = .dollars ∧ closer = .dollars ∧ shape = .displayMath (bytes "$$") (bytes "$$") ∨
    k = .command (bytes "(") ∧ closer = .command (bytes ")") ∧
      shape = .inlineMath (bytes "\\(") (bytes "\\)") ∨
    k = .command (bytes "[") ∧ closer = .command (bytes "]") ∧
      shape = .displayMath (bytes "\\[") (bytes "\\]") := by
  unfold formula? at h
  split at h
  · cases h
    exact .inl ⟨rfl, rfl, rfl⟩
  · split at h
    · next hname =>
      cases h
      exact .inr (.inl ⟨by rw [hname], rfl, rfl⟩)
    · split at h
      · next hname =>
        cases h
        exact .inr (.inr ⟨by rw [hname], rfl, rfl⟩)
      · cases h
  · cases h

/-- Whether a mandatory argument begins at a place: a group, a command that can be an argument, or a
    character without a meaning of its own. A backslash that ends the source is a fault and nothing
    else. -/
def beginsArgument (r : Registry) (c : Cursor) : Bool :=
  match c.rest with
  | [] => false
  | b :: s =>
    if b = Byte.openBrace then true
    else if b = Byte.backslash then
      s.isEmpty || !(r.isVerb (Token.commandName s) || isDelimiter (Token.commandName s))
    else b ≠ 0 && !isActive b && !isBlank b

/-- Whether no argument of a kind is at a place. -/
def isAbsent (r : Registry) (c : Cursor) : ArgKind → Bool
  | .star => c.peek? ≠ some Byte.star
  | .optional => c.peek? ≠ some Byte.openBracket
  | .mandatory => !beginsArgument r c.skipSpace.2

/-- The arguments that a command takes. -/
def commandArgs (r : Registry) (name : Bytes) : List ArgKind :=
  ((r.command? name).map Entry.args).getD []

/-- The mode in which the arguments of a command are read. -/
def commandMode (r : Registry) (name : Bytes) (mode : Mode) : Mode :=
  ((r.command? name).bind fun e => e.spec.mode?).getD mode

/-- What is known about an environment. -/
def environmentEntry (r : Registry) (name : Bytes) : Entry EnvironmentSpec :=
  (r.environment? name).getD ⟨{}, []⟩

/-- The shape of an environment whose content is read as nodes. -/
def environmentShape (spec : EnvironmentSpec) (name : Bytes) : Shape :=
  if spec.math then .mathEnvironment name else .environment name

/-- Something that can be read: a sequence, a node, or the arguments of a signature, each from one place
    to another. -/
inductive Judgement where
  | sequence (mode : Mode) (closer : Closer) (c : Cursor) (s : Sequence)
  | item (mode : Mode) (c : Cursor) (n : Node) (d : Cursor)
  | arguments (mode : Mode) (kinds : List ArgKind) (c : Cursor) (args : List Node) (d : Cursor)

/-- The ways to read. -/
inductive Derives (r : Registry) : Judgement → Prop
  /-- A sequence ends at the token that closes it, or with the source. -/
  | stop {mode closer c t d} (token : c.token = .ok (t, d))
      (closed : closer.pass t.kind = none ∨ t.kind = .endOfInput) :
      Derives r (.sequence mode closer c ⟨[], t, c, d⟩)
  /-- Otherwise it goes on with a node. -/
  | next {mode closer later c t d n e tail} (token : c.token = .ok (t, d))
      (pass : closer.pass t.kind = some later) (more : t.kind ≠ .endOfInput)
      (head : Derives r (.item mode c n e)) (rest : Derives r (.sequence mode later e tail)) :
      Derives r (.sequence mode closer c { tail with nodes := link n tail.nodes })
  /-- A token that is a node by itself. -/
  | leaf {mode c t d l} (token : c.token = .ok (t, d)) (plain : plainLeaf? mode t.kind = some l) :
      Derives r (.item mode c (.leaf ⟨c.pos, d.pos⟩ {} l) d)
  /-- A script of a formula. -/
  | script {c t d char args e} (token : c.token = .ok (t, d)) (kind : t.kind = .symbol char)
      (sign : char = Byte.caret ∨ char = Byte.underscore)
      (taken : Derives r (.arguments .math [.mandatory] d args e)) :
      Derives r (.item .math c (.branch ⟨c.pos, e.pos⟩ {} (.command [] [char]) args []) e)
  /-- A group. -/
  | group {mode c t d body} (token : c.token = .ok (t, d)) (kind : t.kind = .openBrace)
      (content : Derives r (.sequence mode .brace d body)) (closed : body.isOpen = false) :
      Derives r (.item mode c (.branch ⟨c.pos, body.cursor.pos⟩ {} .group [] body.nodes) body.cursor)
  /-- A formula with an opening and a closing of its own. -/
  | formula {mode c t d closer shape body} (token : c.token = .ok (t, d))
      (kind : formula? t.kind = some (closer, shape))
      (content : Derives r (.sequence .math closer d body)) (closed : body.isOpen = false) :
      Derives r (.item mode c (.branch ⟨c.pos, body.cursor.pos⟩ {} shape [] body.nodes) body.cursor)
  /-- A formula between dollar signs. -/
  | dollar {mode c t d body stop} (token : c.token = .ok (t, d)) (kind : t.kind = .dollar)
      (content : Derives r (.sequence .math .dollar d body)) (closed : body.isOpen = false)
      (half : stop = if body.last.kind = .dollars then body.before.advance 1 else body.cursor) :
      Derives r (.item mode c
        (.branch ⟨c.pos, stop.pos⟩ {} (.inlineMath [Byte.dollar] [Byte.dollar]) [] body.nodes) stop)
  /-- A double dollar sign that opens nothing: what follows it goes on to the end of the source. -/
  | emptyDollars {mode c t d body} (token : c.token = .ok (t, d)) (kind : t.kind = .dollars)
      (content : Derives r (.sequence .math .dollars d body)) (unclosed : body.isOpen = true) :
      Derives r (.item mode c
        (.branch ⟨c.pos, d.pos⟩ {} (.inlineMath [Byte.dollar] [Byte.dollar]) [] []) d)
  /-- An environment whose content is read as nodes. -/
  | environment {mode c t d name e args f body stop} (token : c.token = .ok (t, d))
      (kind : t.kind = .command (bytes "begin")) (opening : d.environmentName = .ok (name, e))
      (nodes : (environmentEntry r name).spec.verbatim = false)
      (taken : Derives r (.arguments mode (environmentEntry r name).args e args f))
      (content : Derives r
        (.sequence (if (environmentEntry r name).spec.math then .math else mode) .environment f body))
      (closed : body.isOpen = false) (closing : body.cursor.environmentName = .ok (name, stop)) :
      Derives r (.item mode c (.branch ⟨c.pos, stop.pos⟩ {}
        (environmentShape (environmentEntry r name).spec name) args body.nodes) stop)
  /-- An environment whose body is kept as it is. -/
  | verbatim {mode c t d name e args f body stop} (token : c.token = .ok (t, d))
      (kind : t.kind = .command (bytes "begin")) (opening : d.environmentName = .ok (name, e))
      (raw : (environmentEntry r name).spec.verbatim = true)
      (taken : Derives r (.arguments mode (environmentEntry r name).args e args f))
      (content : f.verbatimBody name = some (body, stop)) :
      Derives r (.item mode c (.branch ⟨c.pos, stop.pos⟩ {} (.verbatim name body) args []) stop)
  /-- Verbatim text between delimiters; `star` is what stands between the name and the delimiter. -/
  | verb {mode c t d name star e marker text stop} (token : c.token = .ok (t, d))
      (kind : t.kind = .command name) (known : r.isVerb name = true)
      (free : isDelimiter name = false) (starred : d.Reads star e)
      (star_eq : star = [] ∨ star = [Byte.star] ∧ name = bytes "verb")
      (content : e.delimited = .ok ((marker, text), stop)) :
      Derives r (.item mode c
        (.leaf ⟨c.pos, stop.pos⟩ {} (.verb escape (name ++ star) marker text)) stop)
  /-- A command with the arguments of its signature. -/
  | command {mode c t d name args e} (token : c.token = .ok (t, d))
      (kind : t.kind = .command name) (known : r.isVerb name = false)
      (free : isDelimiter name = false)
      (taken : Derives r (.arguments (commandMode r name mode) (commandArgs r name) d args e)) :
      Derives r (.item mode c (.branch ⟨c.pos, e.pos⟩ {} (.command escape name) args []) e)
  /-- A signature that asks for nothing. -/
  | done {mode c} : Derives r (.arguments mode [] c [] c)
  /-- An argument that is not there. -/
  | absent {mode kind kinds c args d} (missing : isAbsent r c kind = true)
      (others : Derives r (.arguments mode kinds c args d)) :
      Derives r (.arguments mode (kind :: kinds) c args d)
  /-- A star. -/
  | star {mode kinds c args d} (sign : c.peek? = some Byte.star)
      (others : Derives r (.arguments mode kinds (c.advance 1) args d)) :
      Derives r (.arguments mode (.star :: kinds) c
        (.branch ⟨c.pos, (c.advance 1).pos⟩ {} (.argument [] [] []) []
          [.leaf ⟨c.pos, (c.advance 1).pos⟩ {} (.text [Byte.star])] :: args) d)
  /-- An optional argument. -/
  | optional {mode kinds c body args d} (sign : c.peek? = some Byte.openBracket)
      (content : Derives r (.sequence mode (.bracket 0) (c.advance 1) body))
      (closed : body.isOpen = false)
      (others : Derives r (.arguments mode kinds body.cursor args d)) :
      Derives r (.arguments mode (.optional :: kinds) c
        (.branch ⟨c.pos, body.cursor.pos⟩ {}
          (.argument [] ArgKind.optional.opening ArgKind.optional.closing) [] body.nodes :: args) d)
  /-- A mandatory argument in braces. -/
  | braced {mode kinds c body args d} (sign : c.skipSpace.2.peek? = some Byte.openBrace)
      (content : Derives r (.sequence mode .brace (c.skipSpace.2.advance 1) body))
      (closed : body.isOpen = false)
      (others : Derives r (.arguments mode kinds body.cursor args d)) :
      Derives r (.arguments mode (.mandatory :: kinds) c
        (.branch ⟨c.pos, body.cursor.pos⟩ {}
          (.argument c.skipSpace.1 ArgKind.mandatory.opening ArgKind.mandatory.closing) []
          body.nodes :: args) d)
  /-- A mandatory argument that is a command without arguments. -/
  | bareCommand {mode kinds c t name stop args d} (token : c.skipSpace.2.token = .ok (t, stop))
      (kind : t.kind = .command name) (known : r.isVerb name = false)
      (free : isDelimiter name = false)
      (others : Derives r (.arguments mode kinds stop args d)) :
      Derives r (.arguments mode (.mandatory :: kinds) c
        (bareArgument c c.skipSpace.1
          (.branch ⟨c.skipSpace.2.pos, stop.pos⟩ {} (.command escape name) [] []) stop.pos :: args) d)
  /-- A mandatory argument that is a character. -/
  | bareCharacter {mode kinds c b char stop args d} (sign : c.skipSpace.2.peek? = some b)
      (inert : (b ≠ 0 && !isActive b && !isBlank b) = true)
      (content : c.skipSpace.2.character = (char, stop))
      (others : Derives r (.arguments mode kinds stop args d)) :
      Derives r (.arguments mode (.mandatory :: kinds) c
        (bareArgument c c.skipSpace.1
          (.leaf ⟨c.skipSpace.2.pos, stop.pos⟩ {} (.text char)) stop.pos :: args) d)

/-! ## taking successful runs apart -/

/-- A computation in two parts succeeds if both parts do. -/
theorem bind_eq_ok {ε α β : Type} {x : Except ε α} {f : α → Except ε β} {b : β}
    (h : (x >>= f) = .ok b) : ∃ a, x = .ok a ∧ f a = .ok b := by
  cases x with
  | error e => cases h
  | ok a => exact ⟨a, rfl, h⟩

/-- A computation that is known to succeed has a result. -/
theorem exists_ok_of_isOk {ε α : Type} {x : Except ε α} (h : x.isOk = true) : ∃ a, x = .ok a := by
  cases x with
  | error e => cases h
  | ok a => exact ⟨a, rfl⟩

/-- A container that refuses an open sequence was read from a closed one. -/
theorem closed_of_bind_eq_ok {β : Type} {x : Except Fault Sequence} {fault : Sequence → Fault}
    {f : Sequence → Except Fault β} {b : β}
    (h : (do
      let body ← x
      if body.isOpen then throw (fault body)
      f body) = .ok b) :
    ∃ body, x = .ok body ∧ body.isOpen = false ∧ f body = .ok b := by
  obtain ⟨body, hbody, h⟩ := bind_eq_ok h
  cases hopen : body.isOpen with
  | true =>
    rw [hopen] at h
    cases h
  | false =>
    rw [hopen] at h
    exact ⟨body, hbody, hopen, h⟩

/-- The reader yields derivations only, and does not go back. -/
structure Reader.Sound (r : Registry) (read : Reader) : Prop where
  derives : ∀ {mode closer c s}, read mode closer c = .ok s → Derives r (.sequence mode closer c s)
  onward : read.Onward

section

variable {r : Registry} {read : Reader}

theorem group_derives {mode : Mode} {start : Nat} {c d : Cursor} {nodes : List Node}
    (hread : read.Sound r) (h : Parse.group read mode start c = .ok (nodes, d)) :
    ∃ body, Derives r (.sequence mode .brace c body) ∧ body.isOpen = false ∧
      nodes = body.nodes ∧ d = body.cursor := by
  obtain ⟨body, hbody, hopen, h⟩ := closed_of_bind_eq_ok h
  cases h
  exact ⟨body, hread.derives hbody, hopen, rfl, rfl⟩

/-- Where a command is next, its name is read off the text behind the backslash. -/
theorem kind_of_backslash {c d : Cursor} {t : Token} {s : Bytes} (hrest : c.rest = Byte.backslash :: s)
    (h : c.token = .ok (t, d)) : s ≠ [] ∧ t.kind = .command (Token.commandName s) := by
  unfold Cursor.token at h
  rw [hrest] at h
  split at h
  · next kind hk =>
    cases h
    cases s with
    | nil => cases hk
    | cons b s => exact ⟨List.cons_ne_nil b s, (Option.some.inj hk).symm⟩
  · cases h

/-! ## arguments -/

/- An argument is read in front of others, so each lemma takes a derivation of the arguments after it and
gives one that begins an argument earlier. -/

theorem starArgument_derives {mode : Mode} {kinds : List ArgKind} {c d e : Cursor}
    {arg? : Option Node} {args : List Node} (h : starArgument c = (arg?, d))
    (others : Derives r (.arguments mode kinds d args e)) :
    Derives r (.arguments mode (.star :: kinds) c (arg?.toList ++ args) e) := by
  unfold starArgument at h
  split at h
  · next hstar =>
    cases h
    exact .star hstar others
  · next hstar =>
    cases h
    exact .absent (by simpa [isAbsent] using hstar) others

theorem optionalArgument_derives {mode : Mode} {kinds : List ArgKind} {c d e : Cursor}
    {arg? : Option Node} {args : List Node} (hread : read.Sound r)
    (h : optionalArgument read mode c = .ok (arg?, d))
    (others : Derives r (.arguments mode kinds d args e)) :
    Derives r (.arguments mode (.optional :: kinds) c (arg?.toList ++ args) e) := by
  unfold optionalArgument at h
  by_cases hsign : c.peek? = some Byte.openBracket
  · rw [if_neg (by simpa using hsign)] at h
    obtain ⟨body, hbody, hopen, h⟩ := closed_of_bind_eq_ok h
    cases h
    exact .optional hsign (hread.derives hbody) hopen others
  · rw [if_pos hsign] at h
    cases h
    exact .absent (by simpa [isAbsent] using hsign) others

/-- A mandatory argument that is not there leaves the cursor where it was. -/
theorem absent_mandatory {mode : Mode} {kinds : List ArgKind} {c e : Cursor} {args : List Node}
    (hbegin : beginsArgument r c.skipSpace.2 = false)
    (others : Derives r (.arguments mode kinds c args e)) :
    Derives r (.arguments mode (.mandatory :: kinds) c args e) :=
  .absent (by simp [isAbsent, hbegin]) others

theorem mandatoryArgument_derives {mode : Mode} {kinds : List ArgKind} {c d e : Cursor}
    {arg? : Option Node} {args : List Node} (hread : read.Sound r)
    (h : mandatoryArgument r read mode c = .ok (arg?, d))
    (others : Derives r (.arguments mode kinds d args e)) :
    Derives r (.arguments mode (.mandatory :: kinds) c (arg?.toList ++ args) e) := by
  unfold mandatoryArgument at h
  dsimp only at h
  split at h
  · next hnone =>
    cases h
    refine absent_mandatory ?_ others
    simp [beginsArgument, List.head?_eq_none_iff.1 hnone]
  · next b hb =>
    obtain ⟨s, hs⟩ := List.head?_eq_some_iff.1 hb
    split at h
    · next hopen =>
      cases hopen
      obtain ⟨⟨nodes, stop⟩, hgroup, h⟩ := bind_eq_ok h
      cases h
      obtain ⟨body, hbody, hclosed, rfl, rfl⟩ := group_derives hread hgroup
      exact .braced hb hbody hclosed others
    · next hopen =>
      split at h
      · next hslash =>
        cases hslash
        obtain ⟨⟨t, stop⟩, htoken, h⟩ := bind_eq_ok h
        obtain ⟨hmore, hkind⟩ := kind_of_backslash hs htoken
        dsimp only at h
        rw [hkind] at h
        dsimp only at h
        split at h
        · next hrefused =>
          cases h
          refine absent_mandatory ?_ others
          simp [beginsArgument, hs, hopen, hrefused, hmore]
        · next hfree =>
          cases h
          rw [(Cursor.token_reads htoken).2]
          simp only [Bool.or_eq_true, not_or, Bool.not_eq_true] at hfree
          exact .bareCommand htoken hkind hfree.1 hfree.2 others
      · next hslash =>
        split at h
        · next hinert =>
          cases h
          exact .bareCharacter hb hinert rfl others
        · next hinert =>
          cases h
          refine absent_mandatory ?_ others
          simpa [beginsArgument, hs, hopen, hslash] using hinert

theorem argument_derives {mode : Mode} {kind : ArgKind} {kinds : List ArgKind} {c d e : Cursor}
    {arg? : Option Node} {args : List Node} (hread : read.Sound r)
    (h : argument r read mode kind c = .ok (arg?, d))
    (others : Derives r (.arguments mode kinds d args e)) :
    Derives r (.arguments mode (kind :: kinds) c (arg?.toList ++ args) e) := by
  cases kind with
  | star => exact starArgument_derives (Except.ok.inj h) others
  | optional => exact optionalArgument_derives hread h others
  | mandatory => exact mandatoryArgument_derives hread h others

theorem arguments_derives {mode : Mode} {kinds : List ArgKind} {c d : Cursor} {args : List Node}
    (hread : read.Sound r) (h : Parse.arguments r read mode kinds c = .ok (args, d)) :
    Derives r (.arguments mode kinds c args d) := by
  induction kinds generalizing c args with
  | nil =>
    cases h
    exact .done
  | cons kind kinds ih =>
    obtain ⟨⟨arg?, e⟩, harg, h⟩ := bind_eq_ok h
    obtain ⟨⟨others, f⟩, hothers, h⟩ := bind_eq_ok h
    cases h
    exact argument_derives hread harg (ih hothers)

/-! ## nodes -/

theorem formula_derives {mode : Mode} {c d stop : Cursor} {t : Token} {closer : Closer}
    {shape : Shape} {fault : Sequence → Fault} {n : Node} (hread : read.Sound r)
    (token : c.token = .ok (t, d)) (kind : formula? t.kind = some (closer, shape))
    (h : (do
      let body ← read .math closer d
      if body.isOpen then throw (fault body)
      return (Node.branch ⟨c.pos, body.cursor.pos⟩ {} shape [] body.nodes, body.cursor)) =
        .ok (n, stop)) :
    Derives r (.item mode c n stop) := by
  obtain ⟨body, hbody, hopen, h⟩ := closed_of_bind_eq_ok h
  cases h
  exact .formula token kind (hread.derives hbody) hopen

theorem dollar_derives {mode : Mode} {c d stop : Cursor} {t : Token} {n : Node}
    (hread : read.Sound r) (token : c.token = .ok (t, d)) (kind : t.kind = .dollar)
    (h : inlineDollar read c.pos d = .ok (n, stop)) : Derives r (.item mode c n stop) := by
  obtain ⟨body, hbody, hopen, h⟩ := closed_of_bind_eq_ok h
  cases h
  exact .dollar token kind (hread.derives hbody) hopen rfl

/-- The fault that a double dollar sign knows for its own is that what follows it is not closed. -/
theorem open_of_own_fault {c d : Cursor} {t : Token} {f : Fault} (hread : read.Onward)
    (token : c.token = .ok (t, d)) (kind : t.kind = .dollars)
    (h : displayDollars read c.pos d = .error f) (hown : f.offset = c.pos) :
    ∃ body, read .math .dollars d = .ok body ∧ body.isOpen = true := by
  have hlater : c.pos < d.pos := by
    have hpos := (Cursor.token_reads token).1.pos
    rw [kind] at hpos
    exact hpos ▸ Nat.lt_add_of_pos_right (by decide)
  have honward := hread .math .dollars d
  unfold displayDollars at h
  cases hbody : read .math .dollars d with
  | error g =>
    rw [hbody] at h honward
    cases h
    exact absurd hown (Nat.ne_of_gt (Nat.lt_of_lt_of_le hlater honward))
  | ok body =>
    refine ⟨body, rfl, ?_⟩
    rw [hbody] at h
    cases hopen : body.isOpen with
    | true => rfl
    | false => simp [bind, Except.bind, hopen, pure, Except.pure] at h

theorem dollars_derives {mode : Mode} {c d stop : Cursor} {t : Token} {n : Node}
    (hread : read.Sound r) (token : c.token = .ok (t, d)) (kind : t.kind = .dollars)
    (h : dollars read c.pos d = .ok (n, stop)) : Derives r (.item mode c n stop) := by
  unfold dollars at h
  split at h
  · next f hfault =>
    split at h
    · next hown =>
      cases h
      obtain ⟨body, hbody, hopen⟩ := open_of_own_fault hread.onward token kind hfault hown
      exact .emptyDollars token kind (hread.derives hbody) hopen
    · cases h
  · next hdisplay =>
    cases h
    exact formula_derives hread token (by rw [kind]; rfl) hdisplay

theorem environment_derives {mode : Mode} {c d stop : Cursor} {t : Token} {n : Node}
    (hread : read.Sound r) (token : c.token = .ok (t, d))
    (kind : t.kind = .command (bytes "begin"))
    (h : Parse.environment r read mode c.pos d = .ok (n, stop)) :
    Derives r (.item mode c n stop) := by
  obtain ⟨⟨name, e⟩, hname, h⟩ := bind_eq_ok h
  obtain ⟨⟨args, f⟩, hargs, h⟩ := bind_eq_ok h
  have taken := arguments_derives hread hargs
  dsimp only at h
  split at h
  · next hverbatim =>
    split at h
    · cases h
    · next hbody =>
      cases h
      exact .verbatim token kind hname hverbatim taken hbody
  · next hverbatim =>
    obtain ⟨body, hbody, hopen, h⟩ := closed_of_bind_eq_ok h
    obtain ⟨⟨found, g⟩, hfound, h⟩ := bind_eq_ok h
    dsimp only at h
    split at h
    · cases h
    · next hsame =>
      cases h
      rw [Classical.not_not.1 hsame] at hfound
      exact .environment token kind hname (Bool.not_eq_true _ ▸ hverbatim) taken (hread.derives hbody)
        hopen hfound

theorem verb_derives {mode : Mode} {c d stop : Cursor} {t : Token} {name : Bytes} {n : Node}
    (token : c.token = .ok (t, d)) (kind : t.kind = .command name) (known : r.isVerb name = true)
    (free : isDelimiter name = false) (h : Parse.verb c.pos name d = .ok (n, stop)) :
    Derives r (.item mode c n stop) := by
  unfold Parse.verb at h
  obtain ⟨⟨⟨marker, text⟩, e⟩, hdelimited, h⟩ := bind_eq_ok h
  cases h
  by_cases hstar : name = bytes "verb" ∧ d.peek? = some Byte.star
  · rw [if_pos hstar] at hdelimited
    rw [if_pos hstar]
    have hname : bytes "verb*" = name ++ [Byte.star] := by rw [hstar.1]; decide
    rw [hname]
    exact .verb token kind known free (Cursor.peek_reads hstar.2) (.inr ⟨rfl, hstar.1⟩) hdelimited
  · rw [if_neg hstar] at hdelimited
    rw [if_neg hstar]
    have hname : name = name ++ [] := (List.append_nil name).symm
    rw [hname]
    exact .verb token kind known free (Cursor.Reads.refl d) (.inl rfl) hdelimited

theorem command_derives {mode : Mode} {c d stop : Cursor} {t : Token} {name : Bytes} {n : Node}
    (hread : read.Sound r) (token : c.token = .ok (t, d)) (kind : t.kind = .command name)
    (known : r.isVerb name = false) (free : isDelimiter name = false)
    (h : Parse.command r read mode c.pos name d = .ok (n, stop)) :
    Derives r (.item mode c n stop) := by
  unfold Parse.command at h
  split at h
  · next hnone =>
    cases h
    refine .command token kind known free ?_
    simp only [commandArgs, hnone]
    exact .done
  · next entry hsome =>
    obtain ⟨⟨args, e⟩, hargs, h⟩ := bind_eq_ok h
    cases h
    refine .command token kind known free ?_
    simp only [commandArgs, commandMode, hsome]
    exact arguments_derives hread hargs

theorem control_derives {mode : Mode} {c d stop : Cursor} {t : Token} {name : Bytes} {n : Node}
    (hread : read.Sound r) (token : c.token = .ok (t, d)) (kind : t.kind = .command name)
    (h : control r read mode t.span name d = .ok (n, stop)) : Derives r (.item mode c n stop) := by
  have hstart : t.span.start = c.pos := by rw [(Cursor.token_reads token).2]
  unfold control at h
  rw [hstart] at h
  split at h
  · next hname =>
    subst hname
    exact environment_derives hread token kind h
  · next hbegin =>
    split at h
    · obtain ⟨_, _, h⟩ := bind_eq_ok h
      cases h
    · next hend =>
      split at h
      · next hname =>
        subst hname
        exact formula_derives hread token (by rw [kind]; rfl) h
      · next hparen =>
        split at h
        · next hname =>
          subst hname
          exact formula_derives hread token (by rw [kind]; rfl) h
        · next hbracket =>
          split at h
          · cases h
          · next hclosing =>
            have free : isDelimiter name = false := by
              simp [isDelimiter, hbegin, hend, hparen, hbracket, not_or.1 hclosing]
            split at h
            · next known => exact verb_derives token kind known free h
            · next known =>
              exact command_derives hread token kind (Bool.not_eq_true _ ▸ known) free h

theorem item_derives {mode : Mode} {c d stop : Cursor} {t : Token} {n : Node}
    (hread : read.Sound r) (token : c.token = .ok (t, d)) (more : t.kind ≠ .endOfInput)
    (h : item r read mode t d = .ok (n, stop)) : Derives r (.item mode c n stop) := by
  have hspan : t.span = ⟨c.pos, d.pos⟩ := (Cursor.token_reads token).2
  have hleaf : ∀ {l : Leaf}, plainLeaf? mode t.kind = some l →
      (Except.ok (Node.leaf t.span {} l, d) : Except Fault (Node × Cursor)) = .ok (n, stop) →
      Derives r (.item mode c n stop) := by
    intro l plain hok
    cases hok
    rw [hspan]
    exact .leaf token plain
  unfold item at h
  rw [hspan] at h
  split at h
  case h_1 kind => exact absurd kind more
  case h_2 kind => exact hleaf (by rw [kind]; rfl) (hspan ▸ h)
  case h_3 kind => exact hleaf (by rw [kind]; rfl) (hspan ▸ h)
  case h_4 kind => exact hleaf (by rw [kind]; rfl) (hspan ▸ h)
  case h_5 kind => exact hleaf (by rw [kind]; rfl) (hspan ▸ h)
  case h_6 kind => exact hleaf (by rw [kind]; rfl) (hspan ▸ h)
  case h_7 kind => exact hleaf (by rw [kind]; rfl) (hspan ▸ h)
  case h_8 char kind =>
    split at h
    · next hscript =>
      obtain ⟨⟨args, e⟩, hargs, h⟩ := bind_eq_ok h
      cases h
      obtain ⟨rfl, sign⟩ := hscript
      exact .script token kind sign (arguments_derives hread hargs)
    · next hscript => exact hleaf (by rw [kind, plainLeaf?, if_neg hscript]) (hspan ▸ h)
  case h_9 kind =>
    obtain ⟨⟨nodes, e⟩, hgroup, h⟩ := bind_eq_ok h
    cases h
    obtain ⟨body, hbody, hclosed, rfl, rfl⟩ := group_derives hread hgroup
    exact .group token kind hbody hclosed
  case h_10 => cases h
  case h_11 kind => exact dollar_derives hread token kind h
  case h_12 kind => exact dollars_derives hread token kind h
  case h_13 name kind => exact control_derives hread token kind (hspan ▸ h)

end

/-- **Every successful run of the parser is a derivation.** -/
theorem derives_of_content {r : Registry} {steps : Nat} {mode : Mode} {closer : Closer} {c : Cursor} {s : Sequence}
    (h : content r steps mode closer c = .ok s) : Derives r (.sequence mode closer c s) := by
  induction steps generalizing mode closer c s with
  | zero => cases h
  | succ steps ih =>
    obtain ⟨⟨t, d⟩, token, h⟩ := bind_eq_ok h
    dsimp only at h
    split at h
    · next hclosed =>
      cases h
      exact .stop token (.inl hclosed)
    · next later pass =>
      split at h
      · next hend =>
        cases h
        exact .stop token (.inr hend)
      · next more =>
        obtain ⟨⟨n, e⟩, hitem, h⟩ := bind_eq_ok h
        obtain ⟨tail, htail, h⟩ := bind_eq_ok h
        cases h
        exact .next token pass more (item_derives ⟨ih, content_onward r steps⟩ token more hitem) (ih htail)

theorem content_sound (r : Registry) (steps : Nat) : Reader.Sound r (content r steps) :=
  ⟨derives_of_content, content_onward r steps⟩

/-- A document is a derivation from the start of its source. -/
theorem derives_of_document {r : Registry} {src : Bytes} {tree : Node}
    (h : document r src = .ok tree) :
    ∃ body, Derives r (.sequence .text .document (.ofOffset src 0) body) ∧
      tree = .branch ⟨0, src.length⟩ {} .document [] body.nodes := by
  unfold document documentFrom at h
  split at h
  · next body hbody =>
    cases h
    exact ⟨body, derives_of_content hbody, rfl⟩
  · cases h

end TexTidy.Parse
