import TexTidy.Proofs.Derivation
import TexTidy.Proofs.Tree
import TexTidy.Registry.Builtin

/-!
# TexTidy.Proofs.RoundTrip

A tree keeps its source. The raw text of each node of a parsed document, arguments included, is the slice
of the source under the node's own span, so the raw text of the document is the source.

The proof has three layers:

* the raw text of a branch is the text that opens it, its arguments, its content and the text that
  closes it (`raw_branch`), whatever the pieces are;
* every derivation moves the cursor over the raw text of what it derives (`Derives.moves`), through all
  places where the parser goes back;
* hence every node that was derived at a place of the source is faithful to it (`Derives.faithful`).
-/

namespace TexTidy

namespace Parse

/-! ## what ends a sequence -/

/-- The token that a closer waits for. -/
def Closer.Ends (k : Token.Kind) : Closer → Prop
  | .document => False
  | .brace => k = .closeBrace
  | .bracket _ => k = .closeBracket
  | .environment => k = .command (bytes "end")
  | .dollar => k = .dollar ∨ k = .dollars
  | .dollars => k = .dollars
  | .command name => k = .command name

theorem Closer.ends_of_pass_eq_none {k : Token.Kind} {closer : Closer}
    (h : closer.pass k = none) : closer.Ends k := by
  cases closer with
  | document => cases h
  | bracket depth =>
    simp only [Closer.pass] at h
    split at h
    · cases h
    · split at h
      · next hk => exact hk
      · cases h
  | _ =>
    simp only [Closer.pass, ite_eq_left_iff, reduceCtorEq, imp_false, Classical.not_not] at h
    exact h

/-- A token of its own level does not change what a sequence waits for. -/
theorem Closer.ends_of_pass {k k' : Token.Kind} {closer later : Closer}
    (h : closer.pass k = some later) (hends : later.Ends k') : closer.Ends k' := by
  cases closer with
  | bracket depth =>
    simp only [Closer.pass] at h
    repeat' split at h
    all_goals cases h
    all_goals exact hends
  | document =>
    cases h
    exact hends
  | _ =>
    simp only [Closer.pass] at h
    split at h
    · cases h
    · cases h
      exact hends

/-! ## movement -/

/-- A derivation moves the cursor over the text of what it derives. -/
def Judgement.Moves : Judgement → Prop
  | .sequence _ closer c s =>
    c.Reads (Node.rawAll s.nodes) s.before ∧ s.before.Reads s.last.kind.raw s.cursor ∧
      (s.isOpen = true ∧ s.before.rest = [] ∨ closer.Ends s.last.kind)
  | .item _ c n d => c.Reads n.raw d ∧ n.span = ⟨c.pos, d.pos⟩
  | .arguments _ _ c args d => c.Reads (Node.rawAll args) d

/-- A token that is a leaf by itself stands for the text of that leaf. -/
theorem raw_plainLeaf? {mode : Mode} {k : Token.Kind} {l : Leaf} (h : plainLeaf? mode k = some l) :
    l.raw = k.raw := by
  rcases plainLeaf?_cases h with rfl | ⟨raw, rfl, rfl⟩ | ⟨raw, rfl, rfl⟩ | ⟨c, rfl, rfl⟩
  · simp [Leaf.raw, Leaf.rawPieces]
  · simp [Leaf.raw, Leaf.rawPieces, Token.Kind.raw]
  · simp [Leaf.raw, Leaf.rawPieces, Token.Kind.raw]
  · exact Leaf.raw_comment c false

/-- A formula is opened by its token and closed by what its closer waits for. -/
theorem raw_formula? {k k' : Token.Kind} {closer : Closer} {shape : Shape}
    (h : formula? k = some (closer, shape)) (hends : closer.Ends k') :
    shape.opening = k.raw ∧ shape.closing = k'.raw := by
  rcases formula?_cases h with ⟨rfl, rfl, rfl⟩ | ⟨rfl, rfl, rfl⟩ | ⟨rfl, rfl, rfl⟩
  · rw [show k' = .dollars from hends]
    exact ⟨rfl, rfl⟩
  · rw [show k' = .command (bytes ")") from hends]
    exact ⟨rfl, rfl⟩
  · rw [show k' = .command (bytes "]") from hends]
    exact ⟨rfl, rfl⟩

/-- The text that opens and closes an environment. -/
theorem environmentShape_raw (spec : EnvironmentSpec) (name : Bytes) :
    (environmentShape spec name).opening = Cursor.beginMarker name ∧
      (environmentShape spec name).closing = Cursor.endMarker name := by
  unfold environmentShape
  split <;> simp [Shape.opening, Shape.closing]

/-- The name in braces after `\begin` completes what opens an environment. -/
theorem beginMarker_eq (name : Bytes) :
    Cursor.beginMarker name = (Token.Kind.command (bytes "begin")).raw ++
      (Byte.openBrace :: (name ++ [Byte.closeBrace])) := by
  have hbytes : bytes "\\begin\x7b" = Byte.backslash :: bytes "begin" ++ [Byte.openBrace] := by decide
  simp [Cursor.beginMarker, hbytes, Token.Kind.raw]

/-- The name in braces after `\end` completes what closes an environment. -/
theorem endMarker_eq (name : Bytes) :
    Cursor.endMarker name = (Token.Kind.command (bytes "end")).raw ++
      (Byte.openBrace :: (name ++ [Byte.closeBrace])) := by
  have hbytes : bytes "\\end\x7b" = Byte.backslash :: bytes "end" ++ [Byte.openBrace] := by decide
  simp [Cursor.endMarker, hbytes, Token.Kind.raw]

/-- A container moves over its opening, its content and its closing. -/
theorem closed_moves {mode : Mode} {closer : Closer} {opening closing : Bytes} {c d : Cursor}
    {body : Sequence} (hopening : c.Reads opening d)
    (hbody : (Judgement.sequence mode closer d body).Moves) (closed : body.isOpen = false)
    (hclosing : ∀ k, closer.Ends k → k.raw = closing) :
    c.Reads (opening ++ Node.rawAll body.nodes ++ closing) body.cursor := by
  obtain ⟨hnodes, hlast, hends⟩ := hbody
  rw [← hclosing _ (hends.resolve_left (by simp [closed]))]
  exact (hopening.trans hnodes).trans hlast

/-- Of a double dollar sign only the first half closes a formula. -/
theorem half_dollar_reads {last : Token} {before cursor : Cursor}
    (hends : Closer.dollar.Ends last.kind) (hlast : before.Reads last.kind.raw cursor) :
    before.Reads [Byte.dollar] (if last.kind = .dollars then before.advance 1 else cursor) := by
  rcases hends with hone | htwo
  · rw [hone] at hlast ⊢
    exact hlast
  · rw [if_pos htwo]
    rw [htwo] at hlast
    exact Cursor.reads_of_rest (t := Byte.dollar :: cursor.rest) hlast.text

/-- **A derivation moves the cursor over the text of what it derives.** -/
theorem Derives.moves {r : Registry} {j : Judgement} (h : Derives r j) : j.Moves := by
  induction h with
  | stop token closed =>
    refine ⟨Cursor.Reads.refl _, (Cursor.token_reads token).1, ?_⟩
    rcases closed with hnone | hend
    · exact .inr (Closer.ends_of_pass_eq_none hnone)
    · exact .inl ⟨by simpa [Sequence.isOpen] using hend, Cursor.rest_of_endOfInput token hend⟩
  | next token pass more head rest ihHead ihRest =>
    obtain ⟨hnodes, hlast, hends⟩ := ihRest
    refine ⟨?_, hlast, hends.imp_right (Closer.ends_of_pass pass)⟩
    rw [Node.rawAll_link]
    exact ihHead.1.trans hnodes
  | leaf token plain =>
    refine ⟨?_, rfl⟩
    rw [Node.raw_leaf, raw_plainLeaf? plain]
    exact (Cursor.token_reads token).1
  | script token kind sign taken ih =>
    refine ⟨?_, rfl⟩
    have hsign := (Cursor.token_reads token).1
    rw [kind] at hsign
    simpa [Node.raw_branch, Shape.opening, Shape.closing,
      Token.Kind.raw] using hsign.trans ih
  | group token kind content closed ih =>
    refine ⟨?_, rfl⟩
    have hopening := (Cursor.token_reads token).1
    rw [kind] at hopening
    simpa [Node.raw_branch, Shape.opening, Shape.closing,
      Token.Kind.raw] using closed_moves hopening ih closed (fun k hk => by rw [hk]; rfl)
  | formula token kind content closed ih =>
    refine ⟨?_, rfl⟩
    obtain ⟨hnodes, hlast, hends⟩ := ih
    obtain ⟨hopening, hclosing⟩ := raw_formula? kind (hends.resolve_left (by simp [closed]))
    rw [Node.raw_branch, hopening, hclosing, Node.rawAll_nil, List.append_nil]
    exact ((Cursor.token_reads token).1.trans hnodes).trans hlast
  | dollar token kind content closed half ih =>
    refine ⟨?_, rfl⟩
    obtain ⟨hnodes, hlast, hends⟩ := ih
    have hopening := (Cursor.token_reads token).1
    rw [kind] at hopening
    have hclosing := half_dollar_reads (hends.resolve_left (by simp [closed])) hlast
    rw [← half] at hclosing
    simpa [Node.raw_branch, Shape.opening, Shape.closing, Token.Kind.raw] using (hopening.trans hnodes).trans hclosing
  | emptyDollars token kind =>
    refine ⟨?_, rfl⟩
    have hsign := (Cursor.token_reads token).1
    rw [kind] at hsign
    exact hsign
  | environment token kind opening nodes taken content closed closing ihTaken ihContent =>
    refine ⟨?_, rfl⟩
    have hbegin := (Cursor.token_reads token).1
    rw [kind] at hbegin
    have hopening := (hbegin.trans (Cursor.environmentName_reads opening)).trans ihTaken
    have hbody := closed_moves hopening ihContent closed (fun k hk => by rw [hk])
    have hall := hbody.trans (Cursor.environmentName_reads closing)
    rw [Node.raw_branch, (environmentShape_raw _ _).1, (environmentShape_raw _ _).2, beginMarker_eq,
      endMarker_eq]
    simpa using hall
  | verbatim token kind opening raw taken content ih =>
    refine ⟨?_, rfl⟩
    have hbegin := (Cursor.token_reads token).1
    rw [kind] at hbegin
    have hopening := (hbegin.trans (Cursor.environmentName_reads opening)).trans ih
    have hall := hopening.trans (Cursor.verbatimBody_reads content)
    rw [← beginMarker_eq] at hall
    simpa [Node.raw_branch, Shape.opening, Shape.closing] using hall
  | verb token kind known free starred star_eq content =>
    refine ⟨?_, rfl⟩
    have hname := (Cursor.token_reads token).1
    rw [kind] at hname
    have hall := (hname.trans starred).trans (Cursor.delimited_reads content)
    simpa [Node.raw_leaf, Leaf.raw, Leaf.rawPieces, Token.Kind.raw, escape] using hall
  | command token kind known free taken ih =>
    refine ⟨?_, rfl⟩
    have hname := (Cursor.token_reads token).1
    rw [kind] at hname
    simpa [Node.raw_branch, Shape.opening, Shape.closing,
      Token.Kind.raw, escape] using hname.trans ih
  | done => exact Cursor.Reads.refl _
  | absent missing others ih => exact ih
  | star sign others ih =>
    have hstar := Cursor.peek_reads sign
    simpa [Judgement.Moves, Node.raw_branch, Node.raw_leaf, Leaf.raw, Leaf.rawPieces, Shape.opening,
      Shape.closing] using hstar.trans ih
  | optional sign content closed others ihContent ihOthers =>
    have hbody := closed_moves (Cursor.peek_reads sign) ihContent closed (fun k hk => by rw [hk])
    simpa [Judgement.Moves, Node.raw_branch, Shape.opening, Shape.closing, ArgKind.opening, ArgKind.closing,
      Token.Kind.raw] using hbody.trans ihOthers
  | @braced _ _ c _ _ _ sign content closed others ihContent ihOthers =>
    have hopening := (Cursor.skipSpace_reads c).trans (Cursor.peek_reads sign)
    have hbody := closed_moves hopening ihContent closed (fun k hk => by rw [hk])
    simpa [Judgement.Moves, Node.raw_branch, Shape.opening, Shape.closing, ArgKind.opening, ArgKind.closing,
      Token.Kind.raw] using hbody.trans ihOthers
  | @bareCommand _ _ c _ _ _ _ _ token kind known free others ih =>
    have hname := (Cursor.token_reads token).1
    rw [kind] at hname
    simpa [Judgement.Moves, bareArgument, Node.raw_branch, Shape.opening, Shape.closing, Token.Kind.raw, escape]
      using ((Cursor.skipSpace_reads c).trans hname).trans ih
  | @bareCharacter _ _ c _ _ _ _ _ sign inert content others ih =>
    have hchar := Cursor.character_reads c.skipSpace.2
    rw [content] at hchar
    simpa [Judgement.Moves, bareArgument, Node.raw_branch, Node.raw_leaf, Leaf.raw, Leaf.rawPieces,
      Shape.opening, Shape.closing]
      using ((Cursor.skipSpace_reads c).trans hchar).trans ih

section

variable {r : Registry} {mode : Mode} {closer : Closer} {c : Cursor} {s : Sequence}

/-- What ends a sequence that is not left open. -/
theorem Derives.ends (h : Derives r (.sequence mode closer c s)) (closed : s.isOpen = false) :
    closer.Ends s.last.kind :=
  h.moves.2.2.resolve_left (by simp [closed])

/-- The dollar sign that closes a formula, which may be the first of two. -/
theorem Derives.half_reads (h : Derives r (.sequence mode .dollar c s)) (closed : s.isOpen = false) :
    s.before.Reads [Byte.dollar] (if s.last.kind = .dollars then s.before.advance 1 else s.cursor) :=
  half_dollar_reads (h.ends closed) h.moves.2.1

end

/-- A sequence ends with the token that stands where it stopped. -/
def Judgement.Stops : Judgement → Prop
  | .sequence _ _ _ s => s.before.token = .ok (s.last, s.cursor)
  | .item .. => True
  | .arguments .. => True

theorem Derives.stops {r : Registry} {j : Judgement} (h : Derives r j) : j.Stops := by
  induction h with
  | stop token closed => exact token
  | next token pass more head rest ihHead ihRest => exact ihRest
  | _ => trivial

end Parse

/-! ## faithful nodes -/

namespace Node

/-- The raw text of the node is what stands in the source under its span. -/
def FaithfulTo (src : Bytes) (n : Node) : Prop :=
  n.raw = src.slice n.span

theorem faithfulTo_comment {src : Bytes} {s : Span} {h : Hints} {c : Comment} {before after : Bool}
    (hself : (leaf s h (.comment c before)).FaithfulTo src) :
    (leaf s h (.comment c after)).FaithfulTo src := by
  simpa [FaithfulTo, raw_leaf, Leaf.raw_comment, Node.span] using hself

/-- What was read between two places of the source is faithful under their offsets. -/
theorem faithfulTo_of_reads {src : Bytes} {n : Node} {c d : Cursor} (hc : c.At src)
    (hraw : c.Reads n.raw d) (hspan : n.span = ⟨c.pos, d.pos⟩) : n.FaithfulTo src := by
  rw [FaithfulTo, hspan, Cursor.slice_of_reads hc hraw]

end Node

namespace Parse

open Node (FaithfulTo)

/-- Whatever is read from a place of the source is faithful to the source. -/
def Judgement.Faithful (src : Bytes) : Judgement → Prop
  | .sequence _ _ c s => c.At src → Node.All (FaithfulTo src) s.nodes
  | .item _ c n _ => c.At src → Node.Each (FaithfulTo src) n
  | .arguments _ _ c args _ => c.At src → Node.All (FaithfulTo src) args

section

variable {r : Registry} {src : Bytes}

/-- A branch is faithful if its parts are. -/
theorem Derives.branch_faithful {mode : Mode} {c d : Cursor} {s : Span} {h : Hints} {shape : Shape}
    {args content : List Node} (hitem : Derives r (.item mode c (.branch s h shape args content) d))
    (hparts : c.At src → Node.All (FaithfulTo src) args ∧ Node.All (FaithfulTo src) content) :
    (Judgement.item mode c (.branch s h shape args content) d).Faithful src := by
  intro hc
  have hself := Node.faithfulTo_of_reads hc hitem.moves.1 hitem.moves.2
  exact Node.each_branch hself (hparts hc).1 (hparts hc).2

theorem Derives.leaf_faithful {mode : Mode} {c d : Cursor} {s : Span} {h : Hints} {l : Leaf}
    (hitem : Derives r (.item mode c (.leaf s h l) d)) :
    (Judgement.item mode c (.leaf s h l) d).Faithful src := by
  intro hc
  exact Node.each_leaf (Node.faithfulTo_of_reads hc hitem.moves.1 hitem.moves.2)

/-- A sequence that is read from a place of the source ends at one. -/
theorem Derives.sequence_at {mode : Mode} {closer : Closer} {c : Cursor} {s : Sequence}
    (h : Derives r (.sequence mode closer c s)) (hc : c.At src) : s.cursor.At src :=
  (hc.reads h.moves.1).reads h.moves.2.1

/-- An argument is faithful if its content is. -/
theorem faithful_argument {c stop : Cursor} {space opening closing : Bytes} {nodes : List Node}
    (hc : c.At src) (hraw : c.Reads (space ++ opening ++ Node.rawAll nodes ++ closing) stop)
    (hnodes : Node.All (FaithfulTo src) nodes) :
    Node.Each (FaithfulTo src)
      (.branch ⟨c.pos, stop.pos⟩ {} (.argument space opening closing) [] nodes) := by
  refine Node.each_branch ?_ (Node.all_nil _) hnodes
  exact Node.faithfulTo_of_reads hc
    (by simpa [Node.raw_branch, Shape.opening, Shape.closing] using hraw) rfl

/-- An argument of one node is faithful if that node is. -/
theorem faithful_bareArgument {c d stop : Cursor} {space : Bytes} {n : Node} (hc : c.At src)
    (hspace : c.Reads space d) (hraw : d.Reads n.raw stop) (hspan : n.span = ⟨d.pos, stop.pos⟩)
    (hparts : n.FaithfulTo src → Node.Each (FaithfulTo src) n) :
    Node.Each (FaithfulTo src) (bareArgument c space n stop.pos) := by
  have hself := Node.faithfulTo_of_reads (hc.reads hspace) hraw hspan
  refine faithful_argument hc ?_ (Node.all_cons (hparts hself) (Node.all_nil _))
  simpa using hspace.trans hraw

/-- **Every node that was read is faithful to the source.** -/
theorem Derives.faithful {j : Judgement} (h : Derives r j) : j.Faithful src := by
  induction h with
  | stop token closed => exact fun _ => Node.all_nil _
  | next token pass more head rest ihHead ihRest =>
    intro hc
    exact Node.all_link Node.faithfulTo_comment (ihHead hc) (ihRest (hc.reads head.moves.1))
  | leaf token plain => exact (Derives.leaf (r := r) token plain).leaf_faithful
  | script token kind sign taken ih =>
    refine (Derives.script token kind sign taken).branch_faithful fun hc => ?_
    exact ⟨ih (hc.reads (Cursor.token_reads token).1), Node.all_nil _⟩
  | group token kind content closed ih =>
    refine (Derives.group token kind content closed).branch_faithful fun hc => ?_
    exact ⟨Node.all_nil _, ih (hc.reads (Cursor.token_reads token).1)⟩
  | formula token kind content closed ih =>
    refine (Derives.formula token kind content closed).branch_faithful fun hc => ?_
    exact ⟨Node.all_nil _, ih (hc.reads (Cursor.token_reads token).1)⟩
  | dollar token kind content closed half ih =>
    refine (Derives.dollar token kind content closed half).branch_faithful fun hc => ?_
    exact ⟨Node.all_nil _, ih (hc.reads (Cursor.token_reads token).1)⟩
  | emptyDollars token kind content unclosed =>
    refine (Derives.emptyDollars token kind content unclosed).branch_faithful fun _ => ?_
    exact ⟨Node.all_nil _, Node.all_nil _⟩
  | environment token kind opening nodes taken content closed closing ihTaken ihContent =>
    refine (Derives.environment token kind opening nodes taken content closed
      closing).branch_faithful fun hc => ?_
    have he := (hc.reads (Cursor.token_reads token).1).reads (Cursor.environmentName_reads opening)
    exact ⟨ihTaken he, ihContent (he.reads taken.moves)⟩
  | verbatim token kind opening raw taken content ih =>
    refine (Derives.verbatim token kind opening raw taken content).branch_faithful fun hc => ?_
    have he := (hc.reads (Cursor.token_reads token).1).reads (Cursor.environmentName_reads opening)
    exact ⟨ih he, Node.all_nil _⟩
  | verb token kind known free starred star_eq content =>
    exact (Derives.verb token kind known free starred star_eq content).leaf_faithful
  | command token kind known free taken ih =>
    refine (Derives.command token kind known free taken).branch_faithful fun hc => ?_
    exact ⟨ih (hc.reads (Cursor.token_reads token).1), Node.all_nil _⟩
  | done => exact fun _ => Node.all_nil _
  | absent missing others ih => exact ih
  | star sign others ih =>
    intro hc
    have hsign := Cursor.peek_reads sign
    have harg := faithful_bareArgument (n := .leaf ⟨_, _⟩ {} (.text [Byte.star])) hc
      (Cursor.Reads.refl _) hsign rfl Node.each_leaf
    exact Node.all_cons harg (ih (hc.reads hsign))
  | optional sign content closed others ihContent ihOthers =>
    intro hc
    have hsign := Cursor.peek_reads sign
    have hbody := closed_moves ((Cursor.Reads.refl _).trans hsign) content.moves closed
      (fun k hk => by rw [hk])
    have harg := faithful_argument hc hbody (ihContent (hc.reads hsign))
    exact Node.all_cons harg (ihOthers (content.sequence_at (hc.reads hsign)))
  | @braced _ _ c _ _ _ sign content closed others ihContent ihOthers =>
    intro hc
    have hsign := (Cursor.skipSpace_reads c).trans (Cursor.peek_reads sign)
    have hbody := closed_moves hsign content.moves closed (fun k hk => by rw [hk])
    have harg := faithful_argument hc hbody (ihContent (hc.reads hsign))
    exact Node.all_cons harg (ihOthers (content.sequence_at (hc.reads hsign)))
  | @bareCommand _ _ c _ name _ _ _ token kind known free others ih =>
    intro hc
    have hspace := Cursor.skipSpace_reads c
    have hname := (Cursor.token_reads token).1
    rw [kind] at hname
    have harg := faithful_bareArgument (n := .branch ⟨_, _⟩ {} (.command escape name) [] []) hc hspace
      (by simpa [Node.raw_branch, Shape.opening, Shape.closing, Token.Kind.raw, escape] using hname)
      rfl
      (fun hself => Node.each_branch hself (Node.all_nil _) (Node.all_nil _))
    exact Node.all_cons harg (ih ((hc.reads hspace).reads hname))
  | @bareCharacter _ _ c _ char _ _ _ sign inert content others ih =>
    intro hc
    have hspace := Cursor.skipSpace_reads c
    have hchar := Cursor.character_reads c.skipSpace.2
    rw [content] at hchar
    have harg := faithful_bareArgument (n := .leaf ⟨_, _⟩ {} (.text char)) hc hspace
      (by simpa [Node.raw_leaf, Leaf.raw, Leaf.rawPieces] using hchar) rfl Node.each_leaf
    exact Node.all_cons harg (ih ((hc.reads hspace).reads hchar))

/-- The nodes of a document are read from all of the source. -/
theorem Derives.rawAll_document {body : Sequence}
    (h : Derives r (.sequence .text .document (.ofOffset src 0) body)) :
    Node.rawAll body.nodes = src := by
  obtain ⟨hnodes, -, hends⟩ := h.moves
  have hrest : body.before.rest = [] := (hends.resolve_right id).2
  have htext := hnodes.text
  rw [hrest, List.append_nil] at htext
  exact htext.symm

/-- **The raw round trip.** Every node of a parsed document has as its raw text the slice of the source
    under its own span. The span of the document is the whole source, so its raw text is the source. -/
theorem raw_eq_slice_of_document {tree : Node} (h : document r src = .ok tree) :
    (∀ n ∈ tree.preorder, n.raw = src.slice n.span) ∧ tree.span = ⟨0, src.length⟩ ∧
      tree.raw = src := by
  obtain ⟨body, hbody, rfl⟩ := derives_of_document h
  have hself : (Node.branch ⟨0, src.length⟩ {} .document [] body.nodes).raw = src := by
    simp [Node.raw_branch, Shape.opening, Shape.closing, hbody.rawAll_document]
  refine ⟨Node.each_branch ?_ (Node.all_nil _)
    (hbody.faithful (Cursor.at_start src)), rfl, hself⟩
  simp [hself, Node.span, Bytes.slice]

/-- A document with every kind of going back: `$` closed by half of a `$$`, a `$$` that opens nothing, an
    argument that is not there, and bytes that form no character. -/
theorem raw_eq_slice_of_document_dollars :
    ∃ tree, document .builtin (bytes "$a$$b$\\frac \n\n1$$" ++ [0xFF, 0x25, 0x0D]) = .ok tree ∧
      (∀ n ∈ tree.preorder,
        n.raw = (bytes "$a$$b$\\frac \n\n1$$" ++ [0xFF, 0x25, 0x0D]).slice n.span) ∧
      tree.span = ⟨0, 20⟩ ∧ tree.raw = bytes "$a$$b$\\frac \n\n1$$" ++ [0xFF, 0x25, 0x0D] := by
  obtain ⟨tree, htree⟩ := exists_ok_of_isOk (x := document .builtin
    (bytes "$a$$b$\\frac \n\n1$$" ++ [0xFF, 0x25, 0x0D])) (by decide +kernel)
  exact ⟨tree, htree, raw_eq_slice_of_document htree⟩

end

end Parse

end TexTidy
