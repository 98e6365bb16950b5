import TexTidy.Proofs.RoundTrip

/-!
# TexTidy.Proofs.Tiling

The spans of a tree tile its source. Under every node of a parsed document the spans of the arguments and
of the content lie end to end, from right behind the text that opens the node to right before the text
that closes it, and no span is empty.

`Node.Tiles lo ns hi` is the tiling of a stretch by a sequence, and `Node.Tiled` says, shape by shape,
which stretches the sequences of a node tile. A derivation moves the cursor over the text of what it
derives (`Derives.moves`), so both ends of a stretch are places of the cursor; `Node.tiled_branch` turns
the lengths of opening and closing into offsets once for all shapes.
-/

namespace TexTidy

/-! ## tilings -/

namespace Node

/-- The spans of the nodes lie end to end from `lo` to `hi`, and none of them is empty. -/
def Tiles : Nat → List Node → Nat → Prop
  | lo, [], hi => lo = hi
  | lo, n :: ns, hi => n.span.start = lo ∧ lo < n.span.stop ∧ Tiles n.span.stop ns hi

/-- Which stretches of the source the arguments and the content of a node tile. -/
def Tiled : Node → Prop
  | .leaf _ _ _ => True
  | .branch s _ .document args content => args = [] ∧ Tiles s.start content s.stop
  | .branch s _ .group args content => args = [] ∧ Tiles (s.start + 1) content (s.stop - 1)
  | .branch s _ (.argument space opening closing) args content =>
    args = [] ∧ Tiles (s.start + space.length + opening.length) content (s.stop - closing.length)
  | .branch s _ (.command escape name) args content =>
    content = [] ∧ Tiles (s.start + (escape ++ name).length) args s.stop
  | .branch s _ (.environment name) args content =>
    ∃ mid, Tiles (s.start + (Cursor.beginMarker name).length) args mid ∧
      Tiles mid content (s.stop - (Cursor.endMarker name).length)
  | .branch s _ (.mathEnvironment name) args content =>
    ∃ mid, Tiles (s.start + (Cursor.beginMarker name).length) args mid ∧
      Tiles mid content (s.stop - (Cursor.endMarker name).length)
  | .branch s _ (.verbatim name body) args content =>
    content = [] ∧ ∃ mid, Tiles (s.start + (Cursor.beginMarker name).length) args mid ∧
      mid + body.length = s.stop - (Cursor.endMarker name).length
  | .branch s _ (.displayMath opening closing) args content =>
    args = [] ∧ Tiles (s.start + opening.length) content (s.stop - closing.length)
  | .branch s _ (.inlineMath opening closing) args content =>
    args = [] ∧ Tiles (s.start + opening.length) content (s.stop - closing.length)

/-- The node takes up room in the source, and what is below it is tiled. -/
structure Solid (n : Node) : Prop where
  tiled : n.Tiled
  room : n.span.start < n.span.stop

theorem tiles_nil (lo : Nat) : Tiles lo [] lo := rfl

theorem tiles_cons {lo hi : Nat} {n : Node} {ns : List Node} (hstart : n.span.start = lo)
    (hn : n.Solid) (hns : Tiles n.span.stop ns hi) : Tiles lo (n :: ns) hi :=
  ⟨hstart, hstart ▸ hn.room, hns⟩

theorem Tiles.le {lo hi : Nat} {ns : List Node} (h : Tiles lo ns hi) : lo ≤ hi := by
  induction ns generalizing lo with
  | nil => exact Nat.le_of_eq h
  | cons n ns ih => exact Nat.le_trans (Nat.le_of_lt h.2.1) (ih h.2.2)

/-- Only nothing fits between an offset and itself. -/
theorem Tiles.lt {lo hi : Nat} {ns : List Node} (h : Tiles lo ns hi) (hns : ns ≠ []) : lo < hi := by
  cases ns with
  | nil => exact absurd rfl hns
  | cons n ns => exact Nat.lt_of_lt_of_le h.2.1 h.2.2.le

/-- Whether a paragraph break follows a comment does not change its span. -/
theorem tiles_link {lo hi : Nat} {n : Node} {ns : List Node} (h : Tiles lo (n :: ns) hi) :
    Tiles lo (Parse.link n ns) hi := by
  unfold Parse.link
  split
  · exact h
  · exact h

theorem solid_comment {s : Span} {h : Hints} {c : Comment} {before after : Bool}
    (hself : (leaf s h (.comment c before)).Solid) : (leaf s h (.comment c after)).Solid :=
  ⟨trivial, hself.room⟩

/-- The sequence that a shape has no use for is empty. -/
def FitsShape (args content : List Node) : Shape → Prop
  | .environment _ | .mathEnvironment _ => True
  | .command _ _ | .verbatim _ _ => content = []
  | _ => args = []

/-- A branch is tiled if its arguments start behind its opening, its content starts behind its arguments
    and its closing stands behind its content. -/
theorem tiled_branch {s : Span} {h : Hints} {shape : Shape} {args content : List Node} {mid hi : Nat}
    (hshape : FitsShape args content shape) (hargs : Tiles (s.start + shape.opening.length) args mid)
    (hcontent : Tiles mid content hi) (hstop : s.stop = hi + shape.closing.length) :
    (branch s h shape args content).Tiled := by
  have hhi : hi = s.stop - shape.closing.length := by omega
  -- With no arguments the content starts where the arguments would.
  have hbare : args = [] → Tiles (s.start + shape.opening.length) content hi := by
    rintro rfl
    exact (show _ = mid from hargs) ▸ hcontent
  cases shape with
  | document => exact ⟨hshape, by simpa [Shape.opening, Shape.closing, hhi] using hbare hshape⟩
  | group => exact ⟨hshape, by simpa [Shape.opening, Shape.closing, hhi] using hbare hshape⟩
  | argument space opening closing =>
    exact ⟨hshape, by simpa [Shape.opening, Shape.closing, hhi, Nat.add_assoc] using hbare hshape⟩
  | displayMath opening closing =>
    exact ⟨hshape, by simpa [Shape.opening, Shape.closing, hhi] using hbare hshape⟩
  | inlineMath opening closing =>
    exact ⟨hshape, by simpa [Shape.opening, Shape.closing, hhi] using hbare hshape⟩
  | environment name => exact ⟨mid, hargs, hhi ▸ hcontent⟩
  | mathEnvironment name => exact ⟨mid, hargs, hhi ▸ hcontent⟩
  | command escape name =>
    refine ⟨hshape, ?_⟩
    rw [show content = [] from hshape] at hcontent
    have hend : mid = s.stop := by simpa [Tiles, Shape.closing, hhi] using hcontent
    exact hend ▸ hargs
  | verbatim name body =>
    refine ⟨hshape, mid, hargs, ?_⟩
    rw [show content = [] from hshape] at hcontent
    have hend : mid = hi := hcontent
    simp only [Shape.closing, List.length_append] at hstop
    omega

end Node

/-! ## tokens take up room -/

namespace Token

/-- A byte that begins a run of text has no meaning of its own. -/
theorem isActive_eq_false {c : UInt8} (hsingle : single? c = none) (hpercent : c ≠ Byte.percent)
    (hdollar : c ≠ Byte.dollar) (hslash : c ≠ Byte.backslash) : isActive c = false := by
  unfold single? at hsingle
  grind [isActive]

theorem raw_comment_ne_nil (c : Comment) : c.raw ≠ [] := by
  simp [Comment.raw]

theorem raw_scanBlank_ne_nil (inked : Bool) {c : UInt8} (hc : isBlank c = true) (s : Bytes) :
    (scanBlank inked (c :: s)).raw ≠ [] := by
  unfold scanBlank
  dsimp only
  split
  · exact raw_comment_ne_nil _
  · split <;> simp [Kind.raw, hc]

/-- The token at a byte stands for that byte at least. -/
theorem raw_scan?_ne_nil {inked : Bool} {c : UInt8} {s : Bytes} {k : Kind}
    (h : scan? inked (c :: s) = some k) : k.raw ≠ [] := by
  rw [scan?] at h
  split at h
  · next hk =>
    cases h
    simp [raw_single? hk]
  · next hsingle =>
    split at h
    · cases h
      exact raw_comment_ne_nil _
    · next hpercent =>
      split at h
      · cases h
        unfold scanDollar
        split <;> simp [Kind.raw]
      · next hdollar =>
        split at h
        · split at h
          · cases h
          · cases h
            simp [Kind.raw]
        · next hslash =>
          split at h
          · next hblank =>
            cases h
            exact raw_scanBlank_ne_nil inked hblank s
          · next hblank =>
            cases h
            have hactive := isActive_eq_false hsingle hpercent hdollar hslash
            simp [Kind.raw, hactive, hblank]

end Token

namespace Cursor

theorem Reads.lt {s : Bytes} {c d : Cursor} (h : Reads s c d) (hs : s ≠ []) : c.pos < d.pos := by
  rw [h.pos]
  exact Nat.lt_add_of_pos_right (List.length_pos_iff.2 hs)

/-- A token other than the end of input takes up room. -/
theorem lt_of_token {c d : Cursor} {t : Token} (h : c.token = .ok (t, d))
    (hkind : t.kind ≠ .endOfInput) : c.pos < d.pos := by
  refine (token_reads h).1.lt ?_
  unfold token at h
  split at h
  · next kind hk =>
    cases h
    cases hrest : c.rest with
    | nil =>
      rw [hrest] at hk
      cases hk
      exact absurd rfl hkind
    | cons b s => exact Token.raw_scan?_ne_nil (hrest ▸ hk)
  · cases h

/-- A character takes up room where there is one. -/
theorem lt_of_character {c : Cursor} {b : UInt8} (h : c.peek? = some b) : c.pos < c.character.2.pos := by
  obtain ⟨s, hs⟩ := List.head?_eq_some_iff.1 h
  have hsize := Utf8.first_pos (s := c.rest) (by simp [hs])
  have hne : c.character.1 ≠ [] := by
    simp only [character, ne_eq, List.take_eq_nil_iff, hs, reduceCtorEq, or_false]
    rw [← hs]
    omega
  exact (character_reads c).lt hne

end Cursor

/-! ## derivations -/

namespace Parse

open Node (Each All Solid Tiles FitsShape)

/-- What is read tiles the stretch that the cursor moves over. -/
def Judgement.Tiled : Judgement → Prop
  | .sequence _ _ c s => Tiles c.pos s.nodes s.before.pos ∧ All Solid s.nodes
  | .item _ _ n _ => Each Solid n
  | .arguments _ _ c args d => Tiles c.pos args d.pos ∧ All Solid args

theorem fitsShape_formula? {k : Token.Kind} {closer : Closer} {shape : Shape} {content : List Node}
    (h : formula? k = some (closer, shape)) :
    FitsShape [] content shape ∧ shape.opening ≠ [] := by
  rcases formula?_cases h with ⟨-, -, rfl⟩ | ⟨-, -, rfl⟩ | ⟨-, -, rfl⟩ <;> exact ⟨rfl, by decide⟩

theorem fitsShape_environmentShape (spec : EnvironmentSpec) (name : Bytes) (args content : List Node) :
    FitsShape args content (environmentShape spec name) := by
  unfold environmentShape
  split <;> trivial

/-- A branch that is read from `c` to `e` is solid if its arguments tile the stretch from behind its opening
    to `f`, and its content the stretch from `f` to before its closing. -/
theorem solid_branch {shape : Shape} {args content : List Node} {c d e f g : Cursor}
    (hshape : FitsShape args content shape) (hopening : c.Reads shape.opening d)
    (hargs : Tiles d.pos args f.pos ∧ All Solid args)
    (hcontent : Tiles f.pos content g.pos ∧ All Solid content) (hclosing : g.Reads shape.closing e)
    (hroom : shape.opening ≠ [] ∨ content ≠ []) :
    Each Solid (.branch ⟨c.pos, e.pos⟩ {} shape args content) := by
  have hd := hopening.pos
  have he := hclosing.pos
  have hsome : c.pos < e.pos := by
    have hle := hargs.1.le
    rcases hroom with hsign | hnodes
    · have hlt := hopening.lt hsign
      have := hcontent.1.le
      omega
    · have hlt := hcontent.1.lt hnodes
      omega
  refine Node.each_branch ⟨Node.tiled_branch hshape ?_ hcontent.1 he, hsome⟩ hargs.2 hcontent.2
  exact hd ▸ hargs.1

/-- No arguments tile nothing. -/
theorem tiled_nil (c : Cursor) : Tiles c.pos [] c.pos ∧ All Solid [] :=
  ⟨Node.tiles_nil _, Node.all_nil _⟩

/-- One node that was read tiles the stretch it was read from. -/
theorem tiled_singleton {n : Node} {c d : Cursor} (hspan : n.span = ⟨c.pos, d.pos⟩) (h : Each Solid n) :
    Tiles c.pos [n] d.pos ∧ All Solid [n] := by
  refine ⟨Node.tiles_cons (by rw [hspan]) h.self ?_, Node.all_cons h (Node.all_nil _)⟩
  rw [hspan]
  exact Node.tiles_nil _

/-- An argument tiles its stretch in front of the arguments that come after it. -/
theorem tiled_cons {n : Node} {ns : List Node} {c d e : Cursor} (hspan : n.span = ⟨c.pos, d.pos⟩)
    (h : Each Solid n) (hns : Tiles d.pos ns e.pos ∧ All Solid ns) :
    Tiles c.pos (n :: ns) e.pos ∧ All Solid (n :: ns) := by
  refine ⟨Node.tiles_cons (by rw [hspan]) h.self ?_, Node.all_cons h hns.2⟩
  rw [hspan]
  exact hns.1

/-- An argument without braces is solid if its node is. -/
theorem solid_bareArgument {c stop : Cursor} {n : Node}
    (hspan : n.span = ⟨c.skipSpace.2.pos, stop.pos⟩) (hn : Each Solid n) :
    Each Solid (bareArgument c c.skipSpace.1 n stop.pos) := by
  have hspace : c.Reads (Shape.argument c.skipSpace.1 [] []).opening c.skipSpace.2 := by
    simpa [Shape.opening] using Cursor.skipSpace_reads c
  exact solid_branch rfl hspace (tiled_nil _) (tiled_singleton hspan hn) (Cursor.Reads.refl _)
    (.inr (by simp))

/-- **What is read tiles the stretch that the cursor moves over**, and so does all that is below it. -/
theorem Derives.tiled {r : Registry} {j : Judgement} (h : Derives r j) : j.Tiled := by
  induction h with
  | stop token closed => exact tiled_nil _
  | next token pass more head rest ihHead ihRest =>
    obtain ⟨htiles, hall⟩ := tiled_cons head.moves.2 ihHead ihRest
    exact ⟨Node.tiles_link htiles, Node.all_link Node.solid_comment ihHead ihRest.2⟩
  | leaf token plain =>
    refine Node.each_leaf ⟨trivial, Cursor.lt_of_token token ?_⟩
    intro hkind
    rw [hkind] at plain
    cases plain
  | script token kind sign taken ih =>
    have hsign := (Cursor.token_reads token).1
    rw [kind] at hsign
    exact solid_branch rfl hsign ih (tiled_nil _) (Cursor.Reads.refl _) (.inl (by simp [Shape.opening]))
  | group token kind content closed ih =>
    have hopening := (Cursor.token_reads token).1
    rw [kind] at hopening
    have hlast := content.moves.2.1
    rw [show _ = Token.Kind.closeBrace from content.ends closed] at hlast
    exact solid_branch rfl hopening (tiled_nil _) ih hlast (.inl (by simp [Shape.opening]))
  | formula token kind content closed ih =>
    have hlast := content.moves.2.1
    obtain ⟨hopening, hclosing⟩ := raw_formula? kind (content.ends closed)
    obtain ⟨hshape, hroom⟩ := fitsShape_formula? kind
    refine solid_branch hshape ?_ (tiled_nil _) ih ?_ (.inl hroom)
    · exact hopening ▸ (Cursor.token_reads token).1
    · exact hclosing ▸ hlast
  | dollar token kind content closed half ih =>
    have hopening := (Cursor.token_reads token).1
    rw [kind] at hopening
    have hclosing := content.half_reads closed
    rw [← half] at hclosing
    exact solid_branch rfl hopening (tiled_nil _) ih hclosing (.inl (by simp [Shape.opening]))
  | @emptyDollars _ c _ _ _ token kind =>
    have hsigns := (Cursor.token_reads token).1
    rw [kind] at hsigns
    -- The two signs are the opening and the closing of a formula with nothing between them.
    have hopening : c.Reads [Byte.dollar] (c.advance 1) := Cursor.reads_of_rest hsigns.text
    have hclosing : (c.advance 1).Reads [Byte.dollar] ((c.advance 1).advance 1) :=
      Cursor.reads_of_rest (by rw [Cursor.rest_advance, hsigns.text]; rfl)
    rw [hsigns.place]
    exact solid_branch rfl hopening (tiled_nil _) (tiled_nil _) hclosing
      (.inl (by simp [Shape.opening]))
  | environment token kind opening nodes taken content closed closing ihTaken ihContent =>
    have hbegin := (Cursor.token_reads token).1
    rw [kind] at hbegin
    have hopening := hbegin.trans (Cursor.environmentName_reads opening)
    have hlast := content.moves.2.1
    rw [show _ = Token.Kind.command (bytes "end") from content.ends closed] at hlast
    have hclosing := hlast.trans (Cursor.environmentName_reads closing)
    rw [← beginMarker_eq] at hopening
    rw [← endMarker_eq] at hclosing
    obtain ⟨hraw, hraw'⟩ := environmentShape_raw (environmentEntry _ _).spec _
    refine solid_branch (fitsShape_environmentShape _ _ _ _) (hraw ▸ hopening) ihTaken ihContent
      (hraw' ▸ hclosing) (.inl ?_)
    simp [hraw, Cursor.beginMarker]
  | verbatim token kind opening raw taken content ih =>
    have hbegin := (Cursor.token_reads token).1
    rw [kind] at hbegin
    have hopening := hbegin.trans (Cursor.environmentName_reads opening)
    rw [← beginMarker_eq] at hopening
    exact solid_branch rfl hopening ih (tiled_nil _) (Cursor.verbatimBody_reads content)
      (.inl (by simp [Shape.opening, Cursor.beginMarker]))
  | verb token kind known free starred star_eq content =>
    have hname := (Cursor.token_reads token).1
    rw [kind] at hname
    have hall := (hname.trans starred).trans (Cursor.delimited_reads content)
    exact Node.each_leaf ⟨trivial, hall.lt (by simp [Token.Kind.raw])⟩
  | command token kind known free taken ih =>
    have hname := (Cursor.token_reads token).1
    rw [kind] at hname
    exact solid_branch rfl hname ih (tiled_nil _) (Cursor.Reads.refl _)
      (.inl (by simp [Shape.opening, escape]))
  | done => exact tiled_nil _
  | absent missing others ih => exact ih
  | star sign others ih =>
    have hsign := Cursor.peek_reads sign
    have hstar : Each Solid (.leaf ⟨_, _⟩ {} (.text [Byte.star])) :=
      Node.each_leaf ⟨trivial, hsign.lt (by simp)⟩
    refine tiled_cons rfl (solid_branch rfl (Cursor.Reads.refl _) (tiled_nil _)
      (tiled_singleton rfl hstar) (Cursor.Reads.refl _) (.inr (by simp))) ih
  | optional sign content closed others ihContent ihOthers =>
    have hlast := content.moves.2.1
    rw [show _ = Token.Kind.closeBracket from content.ends closed] at hlast
    refine tiled_cons rfl ?_ ihOthers
    exact solid_branch rfl (Cursor.peek_reads sign) (tiled_nil _) ihContent hlast (.inl (by decide))
  | @braced _ _ c _ _ _ sign content closed others ihContent ihOthers =>
    have hopening := (Cursor.skipSpace_reads c).trans (Cursor.peek_reads sign)
    have hlast := content.moves.2.1
    rw [show _ = Token.Kind.closeBrace from content.ends closed] at hlast
    refine tiled_cons rfl ?_ ihOthers
    exact solid_branch rfl hopening (tiled_nil _) ihContent hlast
      (.inl (by simp [Shape.opening, ArgKind.opening]))
  | @bareCommand _ _ c _ name _ _ _ token kind known free others ih =>
    have hname := (Cursor.token_reads token).1
    rw [kind] at hname
    have hnode : Each Solid (.branch ⟨_, _⟩ {} (.command escape name) [] []) :=
      solid_branch rfl hname (tiled_nil _) (tiled_nil _) (Cursor.Reads.refl _)
        (.inl (by simp [Shape.opening, escape]))
    exact tiled_cons rfl (solid_bareArgument rfl hnode) ih
  | @bareCharacter _ _ c _ char _ _ _ sign inert content others ih =>
    have hroom := Cursor.lt_of_character sign
    rw [content] at hroom
    have hnode : Each Solid (.leaf ⟨_, _⟩ {} (.text char)) := Node.each_leaf ⟨trivial, hroom⟩
    exact tiled_cons rfl (solid_bareArgument rfl hnode) ih

/-! ## documents -/

/-- **The spans of a document tile its source.** The content of the document covers the source from its
    first byte to its last. Below every node the arguments and the content cover, without gap or overlap,
    what lies between the opening and the closing of the node. No span but that of the document is
    empty. -/
theorem spans_tile_document {r : Registry} {src : Bytes} {tree : Node} (h : document r src = .ok tree) :
    (∃ content, tree = .branch ⟨0, src.length⟩ {} .document [] content ∧ Tiles 0 content src.length) ∧
      (∀ n ∈ tree.preorder, n.Tiled) ∧ ∀ n ∈ tree.preorder.tail, n.span.start < n.span.stop := by
  obtain ⟨body, hbody, rfl⟩ := derives_of_document h
  obtain ⟨htiles, hall⟩ := hbody.tiled
  obtain ⟨hnodes, -, hends⟩ := hbody.moves
  have hlength : body.before.pos = src.length := by
    rw [hnodes.pos, hbody.rawAll_document]
    exact Nat.zero_add _
  rw [hlength] at htiles
  refine ⟨⟨body.nodes, rfl, htiles⟩, ?_, ?_⟩
  · have hself : (Node.branch ⟨0, src.length⟩ {} .document [] body.nodes).Tiled := ⟨rfl, htiles⟩
    exact Node.each_branch hself (Node.all_nil _) fun n hn => (hall n hn).tiled
  · intro n hn
    exact (hall n hn).room

/-- A `$` that is closed by half of a `$$`, arguments that are absent, skipped space and a verbatim body. -/
theorem spans_tile_document_mixed :
    ∃ tree, document .builtin (bytes
        "$a$$b$\\frac 1\\x\\sqrt\n\n\\begin\x7blstlisting\x7d[c] %\\end\x7blstlisting\x7d$$") = .ok tree ∧
      (∃ content, tree = .branch ⟨0, 63⟩ {} .document [] content ∧ Tiles 0 content 63) ∧
      (∀ n ∈ tree.preorder, n.Tiled) ∧ ∀ n ∈ tree.preorder.tail, n.span.start < n.span.stop := by
  obtain ⟨tree, htree⟩ := exists_ok_of_isOk (x := document .builtin (bytes
    "$a$$b$\\frac 1\\x\\sqrt\n\n\\begin\x7blstlisting\x7d[c] %\\end\x7blstlisting\x7d$$")) (by decide +kernel)
  exact ⟨tree, htree, spans_tile_document htree⟩

end Parse

end TexTidy
