import TexTidy.Proofs.Follow
import TexTidy.Proofs.RoundTrip

/-!
# TexTidy.Proofs.Complete

The converse of `derives_of_content`: the parser finds what can be derived. A step is spent on every
token, and each token takes at least one byte, so there are always enough of them.
-/

namespace TexTidy

/-! ## progress -/

namespace Cursor

theorem Reads.length {s : Bytes} {c d : Cursor} (h : Reads s c d) :
    c.rest.length = s.length + d.rest.length := by
  rw [h.text, List.length_append]

/-- Every token but the end of input takes a byte. -/
theorem raw_ne_nil_of_token {c d : Cursor} {t : Token} (h : c.token = .ok (t, d))
    (hmore : t.kind ≠ .endOfInput) : t.kind.raw ≠ [] := by
  have hscan := scan?_of_token h
  cases hrest : c.rest with
  | nil =>
    rw [hrest] at hscan
    exact absurd (Option.some.inj hscan).symm hmore
  | cons b s =>
    rw [hrest] at hscan
    rcases Token.scan?_cases hscan with
      hk | ⟨-, hk⟩ | ⟨-, hk⟩ | ⟨-, -, hk⟩ | ⟨hblank, hk⟩ | ⟨hactive, hblank, hk⟩
    · rw [Token.raw_single? hk]
      exact List.cons_ne_nil _ _
    · rw [hk]
      simp [Token.Kind.raw, Comment.raw]
    · rcases Token.scanDollar_cases s with h | h <;> rw [hk, h] <;> simp [Token.Kind.raw]
    · rw [hk]
      simp [Token.Kind.raw]
    · have htake : (b :: s).takeWhile isBlank ≠ [] := by
        rw [List.takeWhile_cons_of_pos hblank]
        exact List.cons_ne_nil _ _
      rcases Token.scanBlank_cases c.inked (b :: s) with ⟨comment, h⟩ | ⟨-, h⟩ | ⟨-, h⟩
      · rw [hk, h]
        simp [Token.Kind.raw, Comment.raw]
      · rw [hk, h]
        exact htake
      · rw [hk, h]
        exact htake
    · rw [hk, Token.Kind.raw, List.takeWhile_cons_of_pos (by simp [hactive, hblank])]
      exact List.cons_ne_nil _ _

/-- A byte that is a token by itself is read as one. -/
theorem token_of_single {c : Cursor} {b : UInt8} {k : Token.Kind} (sign : c.peek? = some b)
    (single : Token.single? b = some k) : ∃ t, c.token = .ok (t, c.advance 1) ∧ t.kind = k := by
  obtain ⟨s, hs⟩ := List.head?_eq_some_iff.1 sign
  refine ⟨⟨k, ⟨c.pos, c.pos + k.raw.length⟩⟩, ?_, rfl⟩
  rw [token, hs, Token.scan?, single]
  simp [Token.raw_single? single]

theorem token_length {c d : Cursor} {t : Token} (h : c.token = .ok (t, d))
    (hmore : t.kind ≠ .endOfInput) : d.rest.length < c.rest.length := by
  have hlength := (token_reads h).1.length
  have hraw := List.length_pos_iff.2 (raw_ne_nil_of_token h hmore)
  omega

end Cursor

namespace Parse

variable {r : Registry}

/-- Every node takes a byte. -/
theorem Derives.raw_ne_nil {mode : Mode} {c d : Cursor} {n : Node} (h : Derives r (.item mode c n d)) :
    n.raw ≠ [] := by
  cases h with
  | leaf token plain =>
    rw [Node.raw_leaf, raw_plainLeaf? plain]
    refine Cursor.raw_ne_nil_of_token token fun hend => ?_
    rw [hend] at plain
    cases plain
  | script token kind sign taken => simp [Node.raw_branch, Shape.opening]
  | group token kind content closed => simp [Node.raw_branch, Shape.opening]
  | formula token kind content closed =>
    have hopening := (@fitsShape_formula? _ _ _ [] kind).2
    simp [Node.raw_branch, hopening]
  | dollar token kind content closed half => simp [Node.raw_branch, Shape.opening]
  | emptyDollars token kind => simp [Node.raw_branch, Shape.opening]
  | environment token kind opening nodes taken content closed closing =>
    simp [Node.raw_branch, (environmentShape_raw _ _).1, Cursor.beginMarker]
  | verbatim token kind opening raw taken content =>
    simp [Node.raw_branch, Shape.opening, Cursor.beginMarker]
  | verb token kind known free starred star_eq content =>
    simp [Node.raw_leaf, Leaf.raw, Leaf.rawPieces, escape]
  | command token kind known free taken => simp [Node.raw_branch, Shape.opening, escape]

theorem Derives.item_length {mode : Mode} {c d : Cursor} {n : Node}
    (h : Derives r (.item mode c n d)) : d.rest.length < c.rest.length := by
  have hlength := h.moves.1.length
  have hraw := List.length_pos_iff.2 h.raw_ne_nil
  omega

theorem Derives.sequence_length {mode : Mode} {closer : Closer} {c : Cursor} {s : Sequence}
    (h : Derives r (.sequence mode closer c s)) : s.cursor.rest.length ≤ c.rest.length := by
  have hnodes := h.moves.1.length
  have hlast := h.moves.2.1.length
  omega

/-! ## the parser finds what is derived -/

/-- What is derived is found with enough steps. -/
def Judgement.Found (r : Registry) : Judgement → Prop
  | .sequence mode closer c s => ∀ steps, c.rest.length < steps →
      content r steps mode closer c = .ok s
  | .item mode c n d => ∀ steps, c.rest.length ≤ steps → ∀ {t e},
      c.token = .ok (t, e) → Parse.item r (content r steps) mode t e = .ok (n, d)
  | .arguments mode kinds c args d => ∀ steps, c.rest.length ≤ steps →
      Parse.arguments r (content r steps) mode kinds c = .ok (args, d)

section

variable {mode : Mode} {closer later : Closer} {c d e stop : Cursor} {t : Token} {n : Node}
  {kinds : List ArgKind} {args : List Node} {body tail : Sequence} {read : Reader}

theorem found_stop (token : c.token = .ok (t, d))
    (closed : closer.pass t.kind = none ∨ t.kind = .endOfInput) :
    (Judgement.sequence mode closer c ⟨[], t, c, d⟩).Found r := by
  intro steps hsteps
  obtain ⟨steps, rfl⟩ := Nat.exists_eq_succ_of_ne_zero (Nat.ne_of_gt (Nat.zero_lt_of_lt hsteps))
  simp only [content, token, bind, Except.bind]
  cases hpass : closer.pass t.kind with
  | none => rfl
  | some later =>
    rw [hpass] at closed
    simp [closed.resolve_left (by simp)]
    rfl

theorem found_next (token : c.token = .ok (t, d)) (pass : closer.pass t.kind = some later)
    (more : t.kind ≠ .endOfInput) (head : Derives r (.item mode c n e))
    (ihHead : (Judgement.item mode c n e).Found r)
    (ihRest : (Judgement.sequence mode later e tail).Found r) :
    (Judgement.sequence mode closer c { tail with nodes := link n tail.nodes }).Found r := by
  intro steps hsteps
  obtain ⟨steps, rfl⟩ := Nat.exists_eq_succ_of_ne_zero (Nat.ne_of_gt (Nat.zero_lt_of_lt hsteps))
  have hlength := head.item_length
  simp only [content, token, bind, Except.bind, pass, if_neg more,
    ihHead _ (Nat.le_of_lt_succ hsteps) token, ihRest steps (by omega)]
  rfl

/-! ### nodes -/

theorem found_leaf {l : Leaf} (token : c.token = .ok (t, d)) (plain : plainLeaf? mode t.kind = some l) :
    (Judgement.item mode c (.leaf ⟨c.pos, d.pos⟩ {} l) d).Found r := by
  intro steps _ t' d' token'
  cases token.symm.trans token'
  have hspan : t.span = ⟨c.pos, d.pos⟩ := (Cursor.token_reads token).2
  unfold Parse.item
  cases hk : t.kind with
  | symbol char =>
    rw [hk, plainLeaf?] at plain
    split at plain
    · cases plain
    · next hscript =>
      cases plain
      simp only [if_neg hscript, hspan]
  | text | openBracket | closeBracket | space | parbreak | comment =>
    rw [hk] at plain
    cases plain
    simp only [hspan]
  | _ =>
    rw [hk] at plain
    cases plain

theorem found_script {char : UInt8} (token : c.token = .ok (t, d)) (kind : t.kind = .symbol char)
    (sign : char = Byte.caret ∨ char = Byte.underscore)
    (ih : (Judgement.arguments .math [.mandatory] d args e).Found r) :
    (Judgement.item .math c (.branch ⟨c.pos, e.pos⟩ {} (.command [] [char]) args []) e).Found r := by
  intro steps hsteps t' d' token'
  cases token.symm.trans token'
  have hstart : t.span.start = c.pos := by rw [(Cursor.token_reads token).2]
  have hlength := Cursor.token_length token (by simp [kind])
  have hargs := ih steps (by omega)
  simp only [Parse.item, kind, hstart]
  rw [if_pos ⟨trivial, sign⟩]
  simp only [Parse.script, hargs, bind, Except.bind]
  rfl

/-- A container whose content is closed is read in full. -/
theorem bind_closed {β : Type} {x : Except Fault Sequence} {fault : Sequence → Fault}
    {f : Sequence → Except Fault β} (hx : x = .ok body) (closed : body.isOpen = false) :
    (do
      let body ← x
      if body.isOpen then throw (fault body)
      f body) = f body := by
  simp [hx, closed, bind, Except.bind]

theorem found_group (token : c.token = .ok (t, d)) (kind : t.kind = .openBrace)
    (closed : body.isOpen = false) (ih : (Judgement.sequence mode .brace d body).Found r) :
    (Judgement.item mode c (.branch ⟨c.pos, body.cursor.pos⟩ {} .group [] body.nodes) body.cursor).Found
      r := by
  intro steps hsteps t' d' token'
  cases token.symm.trans token'
  have hstart : t.span.start = c.pos := by rw [(Cursor.token_reads token).2]
  have hlength := Cursor.token_length token (by simp [kind])
  have hbody := ih steps (by omega)
  have hgroup : Parse.group (content r steps) mode c.pos d = .ok (body.nodes, body.cursor) :=
    bind_closed hbody closed
  simp only [Parse.item, kind, hgroup, hstart, bind, Except.bind]
  rfl

theorem found_formula {shape : Shape} (token : c.token = .ok (t, d))
    (kind : formula? t.kind = some (closer, shape)) (closed : body.isOpen = false)
    (ih : (Judgement.sequence .math closer d body).Found r) :
    (Judgement.item mode c (.branch ⟨c.pos, body.cursor.pos⟩ {} shape [] body.nodes) body.cursor).Found
      r := by
  intro steps hsteps t' d' token'
  cases token.symm.trans token'
  have hstart : t.span.start = c.pos := by rw [(Cursor.token_reads token).2]
  have hmore : t.kind ≠ .endOfInput := by
    intro hend
    rw [hend] at kind
    cases kind
  have hlength := Cursor.token_length token hmore
  have hbody := ih steps (by omega)
  rcases formula?_cases kind with ⟨hk, rfl, rfl⟩ | ⟨hk, rfl, rfl⟩ | ⟨hk, rfl, rfl⟩
  · have hdisplay : displayDollars (content r steps) c.pos d = .ok (_, body.cursor) :=
      bind_closed hbody closed
    simp only [Parse.item, hk, dollars, hdisplay, hstart]
  · have hinline : inlineParen (content r steps) c.pos d = .ok (_, body.cursor) :=
      bind_closed hbody closed
    simp only [Parse.item, hk]
    rw [show control r (content r steps) mode t.span (bytes "(") d =
      inlineParen (content r steps) t.span.start d from rfl, hstart, hinline]
  · have hdisplay : displayBracket (content r steps) c.pos d = .ok (_, body.cursor) :=
      bind_closed hbody closed
    simp only [Parse.item, hk]
    rw [show control r (content r steps) mode t.span (bytes "[") d =
      displayBracket (content r steps) t.span.start d from rfl, hstart, hdisplay]

theorem found_dollar (token : c.token = .ok (t, d)) (kind : t.kind = .dollar)
    (closed : body.isOpen = false)
    (half : stop = if body.last.kind = .dollars then body.before.advance 1 else body.cursor)
    (ih : (Judgement.sequence .math .dollar d body).Found r) :
    (Judgement.item mode c (.branch ⟨c.pos, stop.pos⟩ {} (.inlineMath [Byte.dollar] [Byte.dollar]) []
      body.nodes) stop).Found r := by
  intro steps hsteps t' d' token'
  cases token.symm.trans token'
  have hstart : t.span.start = c.pos := by rw [(Cursor.token_reads token).2]
  have hlength := Cursor.token_length token (by simp [kind])
  have hbody := ih steps (by omega)
  subst half
  have hinline : inlineDollar (content r steps) c.pos d = .ok (_, _) := bind_closed hbody closed
  simp only [Parse.item, kind, hstart, hinline]

theorem found_emptyDollars (token : c.token = .ok (t, d)) (kind : t.kind = .dollars) (unclosed : body.isOpen = true)
    (ih : (Judgement.sequence .math .dollars d body).Found r) :
    (Judgement.item mode c (.branch ⟨c.pos, d.pos⟩ {} (.inlineMath [Byte.dollar] [Byte.dollar]) [] []) d).Found r := by
  intro steps hsteps t' d' token'
  cases token.symm.trans token'
  have hstart : t.span.start = c.pos := by rw [(Cursor.token_reads token).2]
  have hlength := Cursor.token_length token (by simp [kind])
  have hbody := ih steps (by omega)
  have hdisplay : displayDollars (content r steps) c.pos d = .error ⟨c.pos, .displayUnclosed, body.cursor.pos⟩ := by
    simp only [displayDollars, hbody, bind, Except.bind, unclosed]
    rfl
  simp only [Parse.item, kind, hstart, dollars, hdisplay, if_true]

/-- A command that delimits nothing is one with verbatim text or one with arguments. -/
theorem control_of_free {span : Span} {name : Bytes} (free : isDelimiter name = false) :
    control r read mode span name c =
      if r.isVerb name then Parse.verb span.start name c
      else Parse.command r read mode span.start name c := by
  simp only [isDelimiter, List.contains_eq_mem, List.mem_cons, List.not_mem_nil, or_false,
    decide_eq_false_iff_not, not_or] at free
  obtain ⟨h1, h2, h3, h4, h5, h6⟩ := free
  rw [control, if_neg h1, if_neg h2, if_neg h3, if_neg h5, if_neg (by simp [h4, h6])]

theorem found_environment {name : Bytes} {f : Cursor} (token : c.token = .ok (t, d))
    (kind : t.kind = .command (bytes "begin")) (opening : d.environmentName = .ok (name, e))
    (nodes : (environmentEntry r name).spec.verbatim = false)
    (taken : Derives r (.arguments mode (environmentEntry r name).args e args f))
    (closed : body.isOpen = false) (closing : body.cursor.environmentName = .ok (name, stop))
    (ihArgs : (Judgement.arguments mode (environmentEntry r name).args e args f).Found r)
    (ihBody : (Judgement.sequence (if (environmentEntry r name).spec.math then .math else mode)
      .environment f body).Found r) :
    (Judgement.item mode c (.branch ⟨c.pos, stop.pos⟩ {}
      (environmentShape (environmentEntry r name).spec name) args body.nodes) stop).Found r := by
  intro steps hsteps t' d' token'
  cases token.symm.trans token'
  have hstart : t.span.start = c.pos := by rw [(Cursor.token_reads token).2]
  have hlength := Cursor.token_length token (by simp [kind])
  have hname := (Cursor.environmentName_reads opening).length
  have hargs := Cursor.Reads.length taken.moves
  have hargs := ihArgs steps (by omega)
  have hbody := ihBody steps (by omega)
  simp only [Parse.item, kind]
  rw [show control r (content r steps) mode t.span (bytes "begin") d =
    Parse.environment r (content r steps) mode t.span.start d from rfl, hstart]
  have hentry : (r.environment? name).getD ⟨{}, []⟩ = environmentEntry r name := rfl
  simp only [Parse.environment, opening, bind, Except.bind, hentry, hargs]
  rw [if_neg (by simp [nodes]), hbody]
  dsimp only
  rw [if_neg (by simp [closed]), closing]
  dsimp only
  rw [if_neg (by simp)]
  rfl

theorem found_verbatim {name text : Bytes} {f : Cursor} (token : c.token = .ok (t, d))
    (kind : t.kind = .command (bytes "begin")) (opening : d.environmentName = .ok (name, e))
    (raw : (environmentEntry r name).spec.verbatim = true)
    (content : f.verbatimBody name = some (text, stop))
    (ihArgs : (Judgement.arguments mode (environmentEntry r name).args e args f).Found r) :
    (Judgement.item mode c (.branch ⟨c.pos, stop.pos⟩ {} (.verbatim name text) args []) stop).Found r := by
  intro steps hsteps t' d' token'
  cases token.symm.trans token'
  have hstart : t.span.start = c.pos := by rw [(Cursor.token_reads token).2]
  have hlength := Cursor.token_length token (by simp [kind])
  have hname := (Cursor.environmentName_reads opening).length
  have hargs := ihArgs steps (by omega)
  simp only [Parse.item, kind]
  rw [show control r (Parse.content r steps) mode t.span (bytes "begin") d =
    Parse.environment r (Parse.content r steps) mode t.span.start d from rfl, hstart]
  have hentry : (r.environment? name).getD ⟨{}, []⟩ = environmentEntry r name := rfl
  simp only [Parse.environment, opening, bind, Except.bind, hentry, hargs]
  rw [if_pos raw, content]
  rfl

/-- No text is delimited by stars. -/
theorem peek?_ne_star_of_delimited {marker text : Bytes} (h : c.delimited = .ok ((marker, text), d)) :
    c.peek? ≠ some Byte.star := by
  intro hstar
  obtain ⟨s, hs⟩ := List.head?_eq_some_iff.1 hstar
  have hfirst : Utf8.first c.rest = ('*', 1) := by
    rw [hs]
    rfl
  unfold Cursor.delimited at h
  rw [if_neg (by simp [hs]), hfirst] at h
  cases h

theorem found_verb {name star marker text : Bytes} (token : c.token = .ok (t, d))
    (kind : t.kind = .command name) (known : r.isVerb name = true) (free : isDelimiter name = false)
    (starred : d.Reads star e) (star_eq : star = [] ∨ star = [Byte.star] ∧ name = bytes "verb")
    (content : e.delimited = .ok ((marker, text), stop)) :
    (Judgement.item mode c (.leaf ⟨c.pos, stop.pos⟩ {} (.verb escape (name ++ star) marker text))
      stop).Found r := by
  intro steps _ t' d' token'
  cases token.symm.trans token'
  have hstart : t.span.start = c.pos := by rw [(Cursor.token_reads token).2]
  simp only [Parse.item, kind, control_of_free free, known, if_true, hstart, Parse.verb]
  rcases star_eq with rfl | ⟨rfl, rfl⟩
  · cases starred.place
    have hpeek := peek?_ne_star_of_delimited content
    have hplain : ¬(name = bytes "verb" ∧ d.peek? = some Byte.star) := fun h => hpeek h.2
    rw [if_neg hplain, if_neg hplain, show d.delimited = _ from content, List.append_nil]
    rfl
  · cases starred.place
    have hstarred : bytes "verb" = bytes "verb" ∧ d.peek? = some Byte.star := by
      refine ⟨rfl, ?_⟩
      rw [Cursor.peek?, starred.text]
      rfl
    rw [if_pos hstarred, if_pos hstarred, show (d.advance 1).delimited = _ from content]
    rfl

theorem found_command {name : Bytes} (token : c.token = .ok (t, d)) (kind : t.kind = .command name)
    (known : r.isVerb name = false) (free : isDelimiter name = false)
    (ih : (Judgement.arguments (commandMode r name mode) (commandArgs r name) d args e).Found r) :
    (Judgement.item mode c (.branch ⟨c.pos, e.pos⟩ {} (.command escape name) args []) e).Found r := by
  intro steps hsteps t' d' token'
  cases token.symm.trans token'
  have hstart : t.span.start = c.pos := by rw [(Cursor.token_reads token).2]
  have hlength := Cursor.token_length token (by simp [kind])
  have hargs := ih steps (by omega)
  simp only [Parse.item, kind, control_of_free free, known, hstart, Parse.command]
  cases hentry : r.command? name with
  | none =>
    simp only [commandArgs, hentry] at hargs
    cases hargs
    rfl
  | some entry =>
    simp only [commandArgs, commandMode, hentry, Option.map_some, Option.bind_some, Option.getD_some]
      at hargs
    simp only [hargs, bind, Except.bind]
    rfl

/-! ### arguments -/

theorem argument_absent {kind : ArgKind} (missing : isAbsent r c kind = true) :
    argument r read mode kind c = .ok (none, c) := by
  cases kind with
  | star =>
    simp only [isAbsent, decide_eq_true_eq] at missing
    rw [argument, starArgument, if_neg missing]
  | optional =>
    simp only [isAbsent, decide_eq_true_eq] at missing
    rw [argument, optionalArgument, if_pos missing]
    rfl
  | mandatory =>
    simp only [isAbsent, Bool.not_eq_true'] at missing
    rw [argument, mandatoryArgument]
    dsimp only
    cases hpeek : c.skipSpace.2.peek? with
    | none => rfl
    | some b =>
      obtain ⟨s, hs⟩ := List.head?_eq_some_iff.1 hpeek
      simp only [beginsArgument, hs] at missing
      dsimp only
      split
      · next hopen =>
        rw [if_pos hopen] at missing
        cases missing
      · next hopen =>
        rw [if_neg hopen] at missing
        split
        · next hslash =>
          rw [if_pos hslash, Bool.or_eq_false_iff, Bool.not_eq_false'] at missing
          obtain ⟨hmore, hrefused⟩ := missing
          have hscan : Token.scan? c.skipSpace.2.inked c.skipSpace.2.rest =
              some (.command (Token.commandName s)) := by
            rw [hs, hslash]
            cases s with
            | nil => cases hmore
            | cons a s => rfl
          simp only [Cursor.token, hscan, bind, Except.bind, hrefused, if_true]
          rfl
        · next hslash =>
          rw [if_neg hslash] at missing
          rw [if_neg (by simpa using missing)]
          rfl

theorem found_absent {kind : ArgKind} (missing : isAbsent r c kind = true)
    (ih : (Judgement.arguments mode kinds c args d).Found r) :
    (Judgement.arguments mode (kind :: kinds) c args d).Found r := by
  intro steps hsteps
  simp only [Parse.arguments, argument_absent missing, ih steps hsteps, bind, Except.bind]
  rfl

/-- An argument that is found is followed by the others. -/
theorem arguments_of_argument {kind : ArgKind} (h : argument r read mode kind c = .ok (some n, e))
    (others : Parse.arguments r read mode kinds e = .ok (args, d)) :
    Parse.arguments r read mode (kind :: kinds) c = .ok (n :: args, d) := by
  simp only [Parse.arguments, h, others, bind, Except.bind]
  rfl

theorem found_star (sign : c.peek? = some Byte.star)
    (ih : (Judgement.arguments mode kinds (c.advance 1) args d).Found r) :
    (Judgement.arguments mode (.star :: kinds) c (.branch ⟨c.pos, (c.advance 1).pos⟩ {}
      (.argument [] [] []) [] [.leaf ⟨c.pos, (c.advance 1).pos⟩ {} (.text [Byte.star])] :: args) d).Found
      r := by
  intro steps hsteps
  refine arguments_of_argument ?_ (ih _ ?_)
  · rw [argument, starArgument, if_pos sign]
  · have := (Cursor.peek_reads sign).length
    omega

theorem found_optional (sign : c.peek? = some Byte.openBracket) (closed : body.isOpen = false)
    (content : Derives r (.sequence mode (.bracket 0) (c.advance 1) body))
    (ihBody : (Judgement.sequence mode (.bracket 0) (c.advance 1) body).Found r)
    (ih : (Judgement.arguments mode kinds body.cursor args d).Found r) :
    (Judgement.arguments mode (.optional :: kinds) c (.branch ⟨c.pos, body.cursor.pos⟩ {}
      (.argument [] ArgKind.optional.opening ArgKind.optional.closing) [] body.nodes :: args) d).Found
      r := by
  intro steps hsteps
  have hopening := (Cursor.peek_reads sign).length
  have hlength := content.sequence_length
  simp only [List.length_singleton] at hopening
  refine arguments_of_argument ?_ (ih steps (by omega))
  have hbody := ihBody steps (by omega)
  rw [argument, optionalArgument, if_neg (by simp [sign])]
  exact bind_closed hbody closed

theorem found_braced (sign : c.skipSpace.2.peek? = some Byte.openBrace) (closed : body.isOpen = false)
    (content : Derives r (.sequence mode .brace (c.skipSpace.2.advance 1) body))
    (ihBody : (Judgement.sequence mode .brace (c.skipSpace.2.advance 1) body).Found r)
    (ih : (Judgement.arguments mode kinds body.cursor args d).Found r) :
    (Judgement.arguments mode (.mandatory :: kinds) c (.branch ⟨c.pos, body.cursor.pos⟩ {}
      (.argument c.skipSpace.1 ArgKind.mandatory.opening ArgKind.mandatory.closing) []
      body.nodes :: args) d).Found r := by
  intro steps hsteps
  have hspace := (Cursor.skipSpace_reads c).length
  have hopening := (Cursor.peek_reads sign).length
  have hlength := content.sequence_length
  simp only [List.length_singleton] at hopening
  refine arguments_of_argument ?_ (ih steps (by omega))
  have hbody := ihBody steps (by omega)
  have hgroup : Parse.group (Parse.content r steps) mode c.skipSpace.2.pos (c.skipSpace.2.advance 1) =
      .ok (body.nodes, body.cursor) := bind_closed hbody closed
  rw [argument, mandatoryArgument]
  simp only [sign, if_true, hgroup, bind, Except.bind]
  rfl

theorem found_bareCommand {name : Bytes} (token : c.skipSpace.2.token = .ok (t, stop))
    (kind : t.kind = .command name) (known : r.isVerb name = false) (free : isDelimiter name = false)
    (ih : (Judgement.arguments mode kinds stop args d).Found r) :
    (Judgement.arguments mode (.mandatory :: kinds) c (bareArgument c c.skipSpace.1
      (.branch ⟨c.skipSpace.2.pos, stop.pos⟩ {} (.command escape name) [] []) stop.pos :: args) d).Found
      r := by
  intro steps hsteps
  have hspace := (Cursor.skipSpace_reads c).length
  have hlength := Cursor.token_length token (by simp [kind])
  have hspan := (Cursor.token_reads token).2
  refine arguments_of_argument ?_ (ih _ (by omega))
  have hpeek : c.skipSpace.2.peek? = some Byte.backslash := by
    rw [Cursor.peek?, (Cursor.token_reads token).1.text, kind]
    rfl
  rw [argument, mandatoryArgument]
  simp only [hpeek, token, bind, Except.bind, kind, known, free, hspan]
  rfl

theorem found_bareCharacter {b : UInt8} {char : Bytes} (sign : c.skipSpace.2.peek? = some b)
    (inert : (b ≠ 0 && !isActive b && !isBlank b) = true)
    (content : c.skipSpace.2.character = (char, stop))
    (ih : (Judgement.arguments mode kinds stop args d).Found r) :
    (Judgement.arguments mode (.mandatory :: kinds) c (bareArgument c c.skipSpace.1
      (.leaf ⟨c.skipSpace.2.pos, stop.pos⟩ {} (.text char)) stop.pos :: args) d).Found r := by
  intro steps hsteps
  have hspace := (Cursor.skipSpace_reads c).length
  have hchar := (Cursor.character_reads c.skipSpace.2).length
  rw [content] at hchar
  dsimp only at hchar
  refine arguments_of_argument ?_ (ih _ (by omega))
  have hbrace : b ≠ Byte.openBrace := by rintro rfl; cases inert
  have hbackslash : b ≠ Byte.backslash := by rintro rfl; cases inert
  rw [argument, mandatoryArgument]
  simp only [sign, if_neg hbrace, if_neg hbackslash, inert, if_true, content]
  rfl

end

/-- **The parser finds what can be derived.** -/
theorem Derives.found {j : Judgement} (h : Derives r j) : j.Found r := by
  induction h with
  | stop token closed => exact found_stop token closed
  | next token pass more head rest ihHead ihRest => exact found_next token pass more head ihHead ihRest
  | leaf token plain => exact found_leaf token plain
  | script token kind sign taken ih => exact found_script token kind sign ih
  | group token kind content closed ih => exact found_group token kind closed ih
  | formula token kind content closed ih => exact found_formula token kind closed ih
  | dollar token kind content closed half ih => exact found_dollar token kind closed half ih
  | emptyDollars token kind content unclosed ih => exact found_emptyDollars token kind unclosed ih
  | environment token kind opening nodes taken content closed closing ihArgs ihBody =>
    exact found_environment token kind opening nodes taken closed closing ihArgs ihBody
  | verbatim token kind opening raw taken content ih => exact found_verbatim token kind opening raw content ih
  | verb token kind known free starred star_eq content =>
    exact found_verb token kind known free starred star_eq content
  | command token kind known free taken ih => exact found_command token kind known free ih
  | done => exact fun _ _ => rfl
  | absent missing others ih => exact found_absent missing ih
  | star sign others ih => exact found_star sign ih
  | optional sign content closed others ihBody ih => exact found_optional sign closed content ihBody ih
  | braced sign content closed others ihBody ih => exact found_braced sign closed content ihBody ih
  | bareCommand token kind known free others ih => exact found_bareCommand token kind known free ih
  | bareCharacter sign inert content others ih => exact found_bareCharacter sign inert content ih

/-- A derivation from the start of a source is the document that is read. -/
theorem document_of_derives {src : Bytes} {body : Sequence}
    (h : Derives r (.sequence .text .document (.ofOffset src 0) body)) :
    document r src = .ok (.branch ⟨0, src.length⟩ {} .document [] body.nodes) := by
  have hfound := h.found _ (Nat.lt_succ_self _)
  rw [document, documentFrom, sequence, hfound]

end Parse

end TexTidy
